import GoodCommand.Fio.ParaseFio
import GoodCommand.Library.Except

/-! The columns of the CSV file: the first file that is read gives the header, and every later one
with the same keys a row, whatever the order of its keys. -/

namespace GoodCommand.Fio

variable {N : Type} {py : Numbers N} {load : String → Loaded N}

/-! ### The keys of a result -/

def addKey (ks : List String) (k : String) : List String := if k ∈ ks then ks else ks ++ [k]

def columns (opts : List String) : List String :=
  (opts ++ ["numjobs", "bw_KiB", "iops", "lat_ns_mean", "lat_ns_max"]).foldl addKey ["host_name"]

theorem keys_set (r : Result N) (k : String) (v : Json N) : (r.set k v).keys = addKey r.keys k :=
  Dict.keys_set r k v

theorem addKey_of_mem {ks : List String} {k : String} (h : k ∈ ks) : addKey ks k = ks := if_pos h

theorem mem_addKey {ks : List String} {j k : String} : j ∈ addKey ks k ↔ j ∈ ks ∨ j = k := by
  unfold addKey
  split <;> simp_all

theorem addTo_keys {r r' : Result N} {key : String} {x : Json N}
    (h : addTo py r key x = .ok r') (hkey : key ∈ r.keys) : r'.keys = r.keys := by
  obtain ⟨_, -, h⟩ := bind_ok h
  obtain ⟨_, -, h⟩ := bind_ok h
  cases h
  rw [keys_set, addKey_of_mem hkey]

theorem addJob_keys {rw oneJob : Json N} {r r' : Result N} (h : addJob py rw r oneJob = .ok r')
    (hbw : "bw_KiB" ∈ r.keys) (hiops : "iops" ∈ r.keys) (hmean : "lat_ns_mean" ∈ r.keys)
    (hmax : "lat_ns_max" ∈ r.keys) : r'.keys = r.keys := by
  obtain ⟨_, -, h⟩ := bind_ok h
  obtain ⟨r₁, h1, h⟩ := bind_ok h
  have hk1 := addTo_keys h1 hbw
  obtain ⟨_, -, h⟩ := bind_ok h
  obtain ⟨r₂, h2, h⟩ := bind_ok h
  have hk2 := (addTo_keys h2 (hk1 ▸ hiops)).trans hk1
  obtain ⟨_, -, h⟩ := bind_ok h
  obtain ⟨r₃, h3, h⟩ := bind_ok h
  have hk3 := (addTo_keys h3 (hk2 ▸ hmean)).trans hk2
  obtain ⟨_, -, h⟩ := bind_ok h
  obtain ⟨_, -, h⟩ := bind_ok h
  obtain ⟨_, -, h⟩ := bind_ok h
  cases h
  rw [keys_set, addKey_of_mem (hk3 ▸ hmax), hk3]

theorem addOption_keys {globalOptions : Json N} {key : String} {r r' : Result N}
    (h : addOption py globalOptions r (.str key) = .ok r') : r'.keys = addKey r.keys key := by
  obtain ⟨_, -, h⟩ := bind_ok h
  cases h
  exact keys_set _ _ _

theorem addOptions_keys {globalOptions : Json N} {opts : List String} {r r' : Result N}
    (h : (opts.map Json.str).foldlM (addOption py globalOptions) r = .ok r') :
    r'.keys = opts.foldl addKey r.keys := by
  induction opts generalizing r with
  | nil => cases h; rfl
  | cons opt opts ih =>
    obtain ⟨r₁, hone, hrest⟩ := foldlM_cons_ok h
    rw [ih hrest, addOption_keys hone, List.foldl_cons]

def optionNames (py : Numbers N) (oneFileDict : Json N) : Option (List String) :=
  match getItem py oneFileDict (.str "global options") with
  | .ok (.obj members) => some (Dict.ofPairs members).keys
  | _ => none

theorem exists_members {globalOptions rw : Json N}
    (h : getItem py globalOptions (.str "rw") = .ok rw) :
    ∃ members, globalOptions = .obj members := by
  cases globalOptions with
  | obj members => exact ⟨members, rfl⟩
  | null => cases h
  | bool b => cases h
  | num x => cases h
  | str s => cases h
  | arr items => cases h

theorem fioResultOf_keys {jsonFile : String} {oneFileDict : Json N} {r : Result N}
    (h : fioResultOf py jsonFile oneFileDict = .ok r) :
    ∃ opts, optionNames py oneFileDict = some opts ∧ r.keys = columns opts := by
  obtain ⟨globalOptions, hopts, h⟩ := bind_ok h
  obtain ⟨items, hitems, h⟩ := bind_ok h
  obtain ⟨r₁, hadd, h⟩ := bind_ok h
  obtain ⟨_, -, h⟩ := bind_ok h
  obtain ⟨jobs, -, h⟩ := bind_ok h
  obtain ⟨rw, hrw, h⟩ := bind_ok h
  obtain ⟨r₂, hjobs, h⟩ := bind_ok h
  obtain ⟨_, -, h⟩ := bind_ok h
  obtain ⟨_, -, h⟩ := bind_ok h
  obtain ⟨_, -, h⟩ := bind_ok h
  cases h
  obtain ⟨members, rfl⟩ := exists_members hrw
  cases hitems
  refine ⟨(Dict.ofPairs members).keys, by simp [optionNames, hopts], ?_⟩
  have hr₁ := addOptions_keys hadd
  -- the keys before the jobs are added up, which keep them
  have hstart : addKey (addKey (addKey (addKey (addKey r₁.keys "numjobs") "bw_KiB") "iops")
      "lat_ns_mean") "lat_ns_max" = columns (Dict.ofPairs members).keys := by
    rw [hr₁, columns, List.foldl_append]
    rfl
  have hmem : ∀ k ∈ ["bw_KiB", "iops", "lat_ns_mean", "lat_ns_max"],
      k ∈ columns (Dict.ofPairs members).keys := by
    intro k hk
    rw [← hstart]
    simp only [mem_addKey]
    simp only [List.mem_cons, List.not_mem_nil, or_false] at hk
    tauto
  have hkeys : r₂.keys = columns (Dict.ofPairs members).keys := by
    refine foldlM_keeps (I := fun r => r.keys = columns (Dict.ofPairs members).keys)
      (fun r job r' _ hr hjob => ?_) ?_ hjobs
    · rw [← hr] at hmem
      exact (addJob_keys hjob (hmem _ (by simp)) (hmem _ (by simp)) (hmem _ (by simp))
        (hmem _ (by simp))).trans hr
    · simpa only [keys_set] using hstart
  rw [keys_set, hkeys, addKey_of_mem (hmem _ (by simp))]

theorem columns_ne_nil (opts : List String) : columns opts ≠ [] := by
  have hmem : ∀ (ks start : List String), "host_name" ∈ start →
      "host_name" ∈ ks.foldl addKey start := by
    intro ks
    induction ks with
    | nil => exact fun _ h => h
    | cons k ks ih => exact fun start h => ih _ (mem_addKey.mpr (.inl h))
  exact List.ne_nil_of_mem (hmem _ _ (by simp))

theorem getFioResult_keys {jsonFile : String} {r : Result N}
    (h : getFioResult py load jsonFile = .ok (some r)) :
    ∃ doc opts, load jsonFile = .document doc ∧ optionNames py doc = some opts ∧
      r.keys = columns opts := by
  unfold getFioResult at h
  split at h
  · cases h
  · cases h
  · next doc hdoc =>
    cases hr : fioResultOf py jsonFile doc with
    | error e => rw [hr] at h; cases h
    | ok r' =>
      rw [hr] at h
      cases h
      obtain ⟨opts, hopts, hkeys⟩ := fioResultOf_keys hr
      exact ⟨doc, opts, hdoc, hopts, hkeys⟩

theorem getFioResult_keys_ne_nil {jsonFile : String} {r : Result N}
    (h : getFioResult py load jsonFile = .ok (some r)) : r.keys ≠ [] := by
  obtain ⟨doc, opts, -, -, hkeys⟩ := getFioResult_keys h
  exact hkeys ▸ columns_ne_nil opts

/-! ### The rows of a run -/

def jsonFiles (walk : List (String × List String)) : List String :=
  walk.flatMap fun dir => (dir.2.filter isJson).map (join dir.1)

def results (py : Numbers N) (load : String → Loaded N) : List String → List (Result N)
  | [] => []
  | path :: paths =>
    match getFioResult py load path with
    | .ok (some r) => r :: results py load paths
    | _ => []

theorem processing_eq (walk : List (String × List String)) :
    processing py load walk = (jsonFiles walk).foldlM (processFile py load) Proc.start := by
  have hdir : ∀ (st : Proc N) (dir : String × List String),
      dir.2.foldlM (fun st oneFile =>
        if isJson oneFile then processFile py load st (join dir.1 oneFile) else .ok st) st =
      ((dir.2.filter isJson).map (join dir.1)).foldlM (processFile py load) st := by
    rintro st ⟨name, files⟩
    induction files generalizing st with
    | nil => rfl
    | cons file files ih =>
      by_cases hfile : isJson file = true
      · rw [List.filter_cons_of_pos hfile, List.map_cons, List.foldlM_cons, List.foldlM_cons,
          if_pos hfile]
        exact bind_congr fun st' => ih st'
      · rw [List.filter_cons_of_neg hfile, List.foldlM_cons, if_neg hfile]
        exact ih st
  have hwalk : ∀ st : Proc N, walk.foldlM (fun st dir =>
      dir.2.foldlM (fun st oneFile =>
        if isJson oneFile then processFile py load st (join dir.1 oneFile) else .ok st) st) st =
      (jsonFiles walk).foldlM (processFile py load) st := by
    induction walk with
    | nil => exact fun _ => rfl
    | cons dir walk ih =>
      intro st
      rw [List.foldlM_cons, hdir, jsonFiles, List.flatMap_cons, List.foldlM_append]
      exact bind_congr fun st' => ih st'
  exact hwalk _

theorem csvOf_stop {path : String} (h : ∀ r, getFioResult py load path ≠ .ok (some r))
    (paths : List String) (st : Proc N) :
    csvOf ((path :: paths).foldlM (processFile py load) st) = st.csv ∧
      results py load (path :: paths) = [] := by
  rw [List.foldlM_cons, processFile, results]
  cases hres : getFioResult py load path with
  | error e => exact ⟨rfl, rfl⟩
  | ok res =>
    cases res with
    | none => exact ⟨rfl, rfl⟩
    | some r => exact absurd hres (h r)

theorem results_cons {path : String} {r : Result N}
    (h : getFioResult py load path = .ok (some r)) (paths : List String) :
    results py load (path :: paths) = r :: results py load paths := by rw [results, h]

theorem processFile_first {path : String} {r : Result N}
    (h : getFioResult py load path = .ok (some r)) :
    processFile py load Proc.start path = .ok ⟨some r, [], [.keys r, .values r], []⟩ := by
  have hsame : Proc.headEq (⟨some r, [], [.keys r], []⟩ : Proc N) r = true := r.sameKeys_refl
  rw [processFile, h]
  exact if_pos hsame

theorem processFile_headed {head r : Result N} {st : Proc N} {path : String}
    (hst : st.headLine = some head) (hne : head.keys ≠ [])
    (h : getFioResult py load path = .ok (some r)) :
    ∃ st', processFile py load st path = .ok st' ∧ st'.headLine = some head ∧
      st'.csv = st.csv ++ ([r].filter head.sameKeys).map .values := by
  have hlen : ¬ st.headLen = 0 := by
    rw [Proc.headLen, hst]
    exact fun h => hne (List.length_eq_zero_iff.mp h)
  have heq : st.headEq r = head.sameKeys r := by rw [Proc.headEq, hst]
  rw [processFile, h]
  simp only [if_neg hlen, heq]
  by_cases hsame : head.sameKeys r = true
  · exact ⟨_, if_pos hsame, hst, by simp [hsame]⟩
  · exact ⟨_, if_neg hsame, hst, by simp [hsame]⟩

theorem csvOf_headed {head : Result N} (hne : head.keys ≠ []) (paths : List String) {st : Proc N}
    (hst : st.headLine = some head) :
    csvOf (paths.foldlM (processFile py load) st) =
      st.csv ++ ((results py load paths).filter head.sameKeys).map .values := by
  induction paths generalizing st with
  | nil => simp [results, csvOf, pure, Except.pure]
  | cons path paths ih =>
    by_cases hres : ∃ r, getFioResult py load path = .ok (some r)
    · obtain ⟨r, hr⟩ := hres
      obtain ⟨st', hstep, hst', hcsv⟩ := processFile_headed hst hne hr
      rw [List.foldlM_cons, hstep, results_cons hr, List.filter_cons]
      refine (ih hst').trans ?_
      rw [hcsv, List.append_assoc, ← List.map_append, List.filter_singleton]
      by_cases hsame : head.sameKeys r = true <;> simp [hsame]
    · obtain ⟨hcsv, hnil⟩ := csvOf_stop (not_exists.mp hres) paths st
      rw [hcsv, hnil]
      simp

/-- The CSV file of a run: the keys of the first result, its values, and the values of every later
result with the same set of keys. -/
theorem csvOf_processing (walk : List (String × List String)) :
    csvOf (processing py load walk) = match results py load (jsonFiles walk) with
      | [] => []
      | head :: rest =>
        .keys head :: .values head :: (rest.filter head.sameKeys).map .values := by
  rw [processing_eq]
  cases jsonFiles walk with
  | nil => rfl
  | cons path paths =>
    by_cases hres : ∃ r, getFioResult py load path = .ok (some r)
    · obtain ⟨head, hhead⟩ := hres
      rw [List.foldlM_cons, processFile_first hhead, results_cons hhead]
      have hst : (⟨some head, [], [.keys head, .values head], []⟩ : Proc N).headLine = some head :=
        rfl
      exact csvOf_headed (getFioResult_keys_ne_nil hhead) paths hst
    · obtain ⟨hcsv, hnil⟩ := csvOf_stop (not_exists.mp hres) paths (Proc.start : Proc N)
      rw [hcsv, hnil]
      rfl

/-! ### The columns -/

/-- Every data row holds, under each column of the header, the value that the row's result has for
the key of that column. -/
def ColumnsHold (csv : List (View N)) : Prop :=
  ∀ head r, View.keys head ∈ csv → View.values r ∈ csv → ∀ (i : ℕ) key,
    head.keys[i]? = some key → ∃ v, (View.values r).cells[i]? = some v ∧ r.get? key = some v

theorem columnsHold_iff {head : Result N} {rest : List (Result N)}
    (hsame : ∀ r ∈ rest, head.sameKeys r = true) :
    ColumnsHold (.keys head :: rest.map View.values) ↔ ∀ r ∈ rest, head.KeepsOrder r := by
  have hvalues : ∀ r, View.values r ∈ View.keys head :: rest.map View.values ↔ r ∈ rest := by
    intro r
    simp only [List.mem_cons, reduceCtorEq, false_or, List.mem_map, View.values.injEq,
      exists_eq_right]
  constructor
  · intro hcols r hr
    exact (Dict.values_under_keys_iff (hsame r hr)).mp
      (hcols head r (by simp) ((hvalues r).mpr hr))
  · intro horder head' r hhead hr
    obtain rfl : head' = head := by simpa using hhead
    exact (Dict.values_under_keys_iff (hsame r ((hvalues r).mp hr))).mpr
      (horder r ((hvalues r).mp hr))

theorem csvOf_of_results {walk : List (String × List String)} {head : Result N}
    {rest : List (Result N)} (h : results py load (jsonFiles walk) = head :: rest) :
    csvOf (processing py load walk) =
      .keys head :: (head :: rest.filter head.sameKeys).map View.values := by
  rw [csvOf_processing, h]
  rfl

theorem sameKeys_rows {head r : Result N} {rest : List (Result N)}
    (h : r ∈ head :: rest.filter head.sameKeys) : head.sameKeys r = true := by
  rcases List.mem_cons.mp h with rfl | hr
  · exact r.sameKeys_refl
  · exact (List.mem_filter.mp hr).2

/-- The columns hold exactly when every later file that has the columns of the first has them in the
order of the first, as far as their values differ. -/
theorem processing_columns_iff (py : Numbers N) (load : String → Loaded N)
    (walk : List (String × List String)) :
    ColumnsHold (csvOf (processing py load walk)) ↔
      ∀ head rest, results py load (jsonFiles walk) = head :: rest →
        ∀ r ∈ rest, head.sameKeys r = true → head.KeepsOrder r := by
  cases hres : results py load (jsonFiles walk) with
  | nil =>
    rw [csvOf_processing, hres]
    simp [ColumnsHold]
  | cons head rest =>
    rw [csvOf_of_results hres, columnsHold_iff fun r hr => sameKeys_rows hr]
    constructor
    · rintro horder head' rest' heq r hr hsame
      cases heq
      exact horder r (List.mem_cons_of_mem _ (List.mem_filter.mpr ⟨hr, hsame⟩))
    · intro horder r hr
      rcases List.mem_cons.mp hr with rfl | hr
      · exact Dict.keepsOrder_of_keys_eq rfl
      · obtain ⟨hr, hsame⟩ := List.mem_filter.mp hr
        exact horder head rest rfl r hr hsame

/-! ### Two files with their options in different orders -/

def ratNumbers : Numbers ℚ where
  ofNat n := n
  add a b := .ok (a + b)
  ge a b := b ≤ a
  div a b := if b = 0 then .error .zeroDivisionError else .ok (a / b)
  index a := if a.den = 1 then some a.num else none

def oneJobFile (globalOptions : List (String × Json ℚ)) : Json ℚ :=
  .obj [("global options", .obj globalOptions), ("jobs", .arr [.obj [("read",
    .obj [("bw", .num 1), ("iops", .num 1),
      ("lat_ns", .obj [("mean", .num 1), ("max", .num 1)])])]])]

def swappedFiles (path : String) : Loaded ℚ :=
  if path = "d/a.json" then .document (oneJobFile [("rw", .str "read"), ("bs", .str "4k")])
  else if path = "d/b.json" then .document (oneJobFile [("bs", .str "4k"), ("rw", .str "read")])
  else .unreadable

/-- The second row has the block size in the column `rw`. -/
theorem swapped_options_change_columns :
    ¬ ColumnsHold (csvOf (processing ratNumbers swappedFiles [("d", ["a.json", "b.json"])])) := by
  obtain ⟨head, hhead, hkeys⟩ : ∃ head, getFioResult ratNumbers swappedFiles "d/a.json" =
      .ok (some head) ∧ head.keys = columns ["rw", "bs"] := ⟨_, rfl, rfl⟩
  obtain ⟨r, hr, hrkeys, hcell, hget⟩ : ∃ r, getFioResult ratNumbers swappedFiles "d/b.json" =
      .ok (some r) ∧ r.keys = columns ["bs", "rw"] ∧ r.values[1]? = some (.str "4k") ∧
      r.get? "rw" = some (.str "read") := ⟨_, rfl, rfl, rfl, rfl⟩
  have hres : results ratNumbers swappedFiles (jsonFiles [("d", ["a.json", "b.json"])]) =
      [head, r] := (results_cons hhead _).trans (congrArg (head :: ·) (results_cons hr []))
  have hsame : head.sameKeys r = true := by
    rw [Dict.sameKeys_iff_perm, hkeys, hrkeys]
    decide
  rw [csvOf_of_results hres]
  intro hcols
  obtain ⟨v, hv, hv'⟩ := hcols head r (by simp) (by simp [hsame]) 1 "rw" (by rw [hkeys]; rfl)
  have heq : Json.str (N := ℚ) "4k" = .str "read" :=
    Option.some.inj ((hcell.symm.trans hv).trans (hv'.symm.trans hget))
  exact absurd (Json.str.inj heq) (by decide)

end GoodCommand.Fio
