import GoodCommand.Fio.Measured

/-! What a file that is not JSON does to the run of `processing` that meets it: `get_fio_result`
returns `False` for it, which has no keys. -/

namespace GoodCommand.Fio

variable {N : Type}

def parses (load : String → Loaded N) (path : String) : Bool :=
  match load path with
  | .invalid => false
  | _ => true

def withoutInvalid (load : String → Loaded N) (walk : List (String × List String)) :
    List (String × List String) :=
  walk.map fun dir => (dir.1, dir.2.filter fun oneFile => parses load (join dir.1 oneFile))

/-- The run completes, and its CSV file is that of the run without the files that fail to parse. -/
def KeepsOthers (py : Numbers N) (load : String → Loaded N) (walk : List (String × List String)) :
    Prop :=
  ∃ st, processing py load walk = .ok st ∧
    st.csv = csvOf (processing py load (withoutInvalid load walk))

variable {py : Numbers N} {load : String → Loaded N}

theorem processFile_ok_iff (st : Proc N) (path : String) :
    (∃ st', processFile py load st path = .ok st') ↔
      ∃ r, getFioResult py load path = .ok (some r) := by
  rw [processFile]
  constructor
  · rintro ⟨st', h⟩
    cases hres : getFioResult py load path with
    | error e =>
      rw [hres] at h
      cases h
    | ok res =>
      cases res with
      | none =>
        -- `False` has no `keys`
        rw [hres] at h
        cases h
      | some r => exact ⟨r, rfl⟩
  · rintro ⟨r, hres⟩
    rw [hres]
    dsimp only
    split_ifs <;> exact ⟨_, rfl⟩

/-- A run completes exactly when every file it meets has a result. -/
theorem processing_ok_iff (walk : List (String × List String)) :
    (∃ st, processing py load walk = .ok st) ↔
      ∀ path ∈ jsonFiles walk, ∃ r, getFioResult py load path = .ok (some r) := by
  rw [processing_eq]
  exact foldlM_ok_iff processFile_ok_iff _ _

theorem getFioResult_some_iff (path : String) :
    (∃ r, getFioResult py load path = .ok (some r)) ↔
      ∃ doc, load path = .document doc ∧ Measured py doc := by
  rw [getFioResult]
  constructor
  · rintro ⟨r, h⟩
    cases hload : load path with
    | unreadable => simp only [hload, reduceCtorEq] at h
    | invalid => simp only [hload, Except.ok.injEq, reduceCtorEq] at h
    | document doc =>
      rw [hload] at h
      obtain ⟨r', hr', -⟩ := map_ok h
      exact ⟨doc, rfl, (fioResultOf_ok_iff path).mp ⟨r', hr'⟩⟩
  · rintro ⟨doc, hload, hdoc⟩
    obtain ⟨r, hr⟩ := (fioResultOf_ok_iff path).mpr hdoc
    rw [hload]
    exact ⟨r, congrArg (Except.map some) hr⟩

theorem withoutInvalid_of_parses {walk : List (String × List String)}
    (h : ∀ path ∈ jsonFiles walk, parses load path = true) :
    jsonFiles (withoutInvalid load walk) = jsonFiles walk := by
  induction walk with
  | nil => rfl
  | cons dir walk ih =>
    simp only [withoutInvalid, jsonFiles, List.map_cons, List.flatMap_cons,
      List.mem_append] at h ih ⊢
    rw [ih fun path hpath => h path (.inr hpath), List.filter_filter]
    congr 2
    refine List.filter_congr fun oneFile hmem => ?_
    by_cases hjson : isJson oneFile = true
    · have hin : join dir.1 oneFile ∈ (dir.2.filter isJson).map (join dir.1) :=
        List.mem_map_of_mem (List.mem_filter.mpr ⟨hmem, hjson⟩)
      rw [h _ (.inl hin), Bool.and_true]
    · rw [Bool.not_eq_true] at hjson
      rw [hjson, Bool.false_and]

/-- The run keeps the rows of the other files exactly when there is no file to keep them from: all
are parsed and have a result. A file that fails to parse ends the run. -/
theorem processing_keepsOthers_iff (py : Numbers N) (load : String → Loaded N)
    (walk : List (String × List String)) :
    KeepsOthers py load walk ↔
      ∀ path ∈ jsonFiles walk, ∃ doc, load path = .document doc ∧ Measured py doc := by
  simp only [← getFioResult_some_iff, ← processing_ok_iff]
  constructor
  · rintro ⟨st, hst, -⟩
    exact ⟨st, hst⟩
  · rintro ⟨st, hst⟩
    have hparse : ∀ path ∈ jsonFiles walk, parses load path = true := by
      intro path hpath
      obtain ⟨doc, hload, -⟩ :=
        (getFioResult_some_iff path).mp ((processing_ok_iff walk).mp ⟨st, hst⟩ path hpath)
      rw [parses, hload]
    refine ⟨st, hst, ?_⟩
    rw [csvOf_processing, withoutInvalid_of_parses hparse, ← csvOf_processing, hst]
    rfl

/-! ### A file that is not JSON in front of one that is -/

def brokenFile (path : String) : Loaded ℚ :=
  if path = "d/a.json" then .invalid
  else if path = "d/b.json" then .document (oneJobFile [("rw", .str "read"), ("bs", .str "4k")])
  else .unreadable

/-- The run ends without the header and the row that the second file has without the first. -/
theorem broken_file_loses_others :
    csvOf (processing ratNumbers brokenFile [("d", ["a.json", "b.json"])]) = [] ∧
      csvOf (processing ratNumbers brokenFile
        (withoutInvalid brokenFile [("d", ["a.json", "b.json"])])) ≠ [] ∧
      ¬ KeepsOthers ratNumbers brokenFile [("d", ["a.json", "b.json"])] := by
  have hbroken : ∀ r, getFioResult ratNumbers brokenFile "d/a.json" ≠ .ok (some r) := nofun
  obtain ⟨r, hr⟩ : ∃ r, getFioResult ratNumbers brokenFile "d/b.json" = .ok (some r) := ⟨_, rfl⟩
  refine ⟨?_, ?_, ?_⟩
  · have hres : results ratNumbers brokenFile (jsonFiles [("d", ["a.json", "b.json"])]) = [] :=
      (csvOf_stop hbroken ["d/b.json"] Proc.start).2
    rw [csvOf_processing, hres]
  · have hres : results ratNumbers brokenFile
        (jsonFiles (withoutInvalid brokenFile [("d", ["a.json", "b.json"])])) = [r] :=
      results_cons hr []
    rw [csvOf_processing, hres]
    exact List.cons_ne_nil _ _
  · rintro ⟨st, hst, -⟩
    obtain ⟨r', hr'⟩ := (processing_ok_iff _).mp ⟨st, hst⟩ "d/a.json" (List.mem_cons_self ..)
    exact hbroken r' hr'

end GoodCommand.Fio
