import GoodCommand.Library.Tally

/-! The references to a `struct file`, which any number of clients take and drop at once. A client
that has none may look the file up under RCU, and must not get one when the file is on its way
out. -/

namespace GoodCommand.Fs
open Relation (ReflTransGen)

structure File where
  f_count : UInt64
  deriving DecidableEq

/-- The operations of `linux/atomic.h` on an `atomic_long_t` of 64 bits, and the function that drops
a reference and tells whether the file is to be freed, with what they are documented to do. -/
structure FileOps where
  read : UInt64 → UInt64
  inc : UInt64 → UInt64
  addUnless : UInt64 → UInt64 → UInt64 → UInt64 × Bool
  fput : File → File × Bool
  read_eq : ∀ v, read v = v
  inc_eq : ∀ v, inc v = v + 1
  addUnless_eq : ∀ v a u, addUnless v a u = if v = u then (v, false) else (v + a, true)
  fput_eq : ∀ f, fput f = (⟨f.f_count - 1⟩, decide (f.f_count - 1 = 0))

def FileOps.wrapping : FileOps where
  read v := v
  inc v := v + 1
  addUnless v a u := if v = u then (v, false) else (v + a, true)
  fput f := (⟨f.f_count - 1⟩, decide (f.f_count - 1 = 0))
  read_eq _ := rfl
  inc_eq _ := rfl
  addUnless_eq _ _ _ := rfl
  fput_eq _ := rfl

variable (A : FileOps)

def getFile (f : File) : File := ⟨A.inc f.f_count⟩

def getFileRcuMany (x : File) (cnt : UInt64) : File × Bool :=
  let (v, got) := A.addUnless x.f_count cnt 0
  (⟨v⟩, got)

def getFileRcu (x : File) : File × Bool := getFileRcuMany A x 1

def fileCount (x : File) : UInt64 := A.read x.f_count

theorem toNat_sub_one {v : UInt64} (hv : 0 < v.toNat) : (v - 1).toNat = v.toNat - 1 := by
  have hle : (1 : UInt64) ≤ v := UInt64.le_iff_toNat_le.mpr hv
  rw [UInt64.toNat_sub_of_le _ _ hle]
  rfl

/-! ### Clients -/

/-- The references that each client has, the clients that have dropped the last one and are to free
the file, and how often it has been freed. -/
structure FileState (C : Type) where
  file : File
  refs : C → ℕ
  frees : C → Bool
  freed : ℕ

variable {C : Type} [DecidableEq C] {A}

/-- A client that has a reference passes another one on to `d`, or drops it; a client looks the file
up and asks for `cnt` references; a client that is to free the file does. There are never as many
references as the counter has values. -/
inductive FileStep (A : FileOps) : FileState C → FileState C → Prop where
  | get {s : FileState C} {c : C} (d : C) (hc : 0 < s.refs c)
      (hroom : s.file.f_count.toNat + 1 < 2 ^ 64) :
      FileStep A s ⟨getFile A s.file, Function.update s.refs d (s.refs d + 1), s.frees, s.freed⟩
  | lookup {s : FileState C} {c : C} {cnt : UInt64} (hgot : (getFileRcuMany A s.file cnt).2 = true)
      (hroom : s.file.f_count.toNat + cnt.toNat < 2 ^ 64) :
      FileStep A s ⟨(getFileRcuMany A s.file cnt).1,
        Function.update s.refs c (s.refs c + cnt.toNat), s.frees, s.freed⟩
  | lookupFails {s : FileState C} {cnt : UInt64} (hgot : (getFileRcuMany A s.file cnt).2 = false) :
      FileStep A s ⟨(getFileRcuMany A s.file cnt).1, s.refs, s.frees, s.freed⟩
  | put {s : FileState C} {c : C} (hc : 0 < s.refs c) (hlast : (A.fput s.file).2 = false) :
      FileStep A s
        ⟨(A.fput s.file).1, Function.update s.refs c (s.refs c - 1), s.frees, s.freed⟩
  | putLast {s : FileState C} {c : C} (hc : 0 < s.refs c) (hlast : (A.fput s.file).2 = true) :
      FileStep A s ⟨(A.fput s.file).1, Function.update s.refs c (s.refs c - 1),
        Function.update s.frees c true, s.freed⟩
  | free {s : FileState C} {c : C} (hc : s.frees c = true) :
      FileStep A s ⟨s.file, s.refs, Function.update s.frees c false, s.freed + 1⟩

def FileState.total [Fintype C] (s : FileState C) : ℤ := tally (fun n : ℕ => (n : ℤ)) s.refs

structure FileState.Inv [Fintype C] (s : FileState C) : Prop where
  count : (s.file.f_count.toNat : ℤ) = s.total
  alive : 0 < s.total → s.freed = 0 ∧ ∀ c, s.frees c = false
  dead : s.total = 0 → s.freed = 0 ∧ (∃ c, ∀ b, s.frees b = true ↔ b = c) ∨
    s.freed = 1 ∧ ∀ c, s.frees c = false

variable [Fintype C] {s s' : FileState C} {c : C}

namespace FileState

omit [DecidableEq C] in
theorem total_pos (hc : 0 < s.refs c) : 0 < s.total :=
  tally_pos (fun _ => Int.natCast_nonneg _) (Int.natCast_pos.mpr hc)

omit [DecidableEq C] in
theorem total_pos_iff : 0 < s.total ↔ ∃ c, 0 < s.refs c := by
  refine ⟨fun hpos => ?_, fun ⟨c, hc⟩ => total_pos hc⟩
  by_contra hnone
  push Not at hnone
  exact absurd hpos (not_lt.mpr (tally_nonpos fun c => Int.natCast_nonpos_iff.mpr
    (Nat.le_zero.mp (hnone c))))

theorem total_update {f : File} {frees : C → Bool} {freed m : ℕ} :
    (⟨f, Function.update s.refs c m, frees, freed⟩ : FileState C).total = s.total - s.refs c + m :=
  tally_update (fun n : ℕ => (n : ℤ)) s.refs c m

theorem Inv.grow {f : File} {k : ℕ} (hinv : s.Inv) (hpos : 0 < s.total)
    (hcount : f.f_count.toNat = s.file.f_count.toNat + k) :
    (⟨f, Function.update s.refs c (s.refs c + k), s.frees, s.freed⟩ : FileState C).Inv := by
  have htotal : (⟨f, Function.update s.refs c (s.refs c + k), s.frees, s.freed⟩ :
      FileState C).total = s.total + k := by
    rw [total_update]
    push_cast
    ring
  refine ⟨?_, fun _ => hinv.alive hpos, fun hzero => ?_⟩
  · have := hinv.count
    rw [htotal]
    push_cast [hcount]
    omega
  · omega

end FileState

theorem getFileRcuMany_eq (x : File) (cnt : UInt64) : getFileRcuMany A x cnt =
    if x.f_count = 0 then (x, false) else (⟨x.f_count + cnt⟩, true) := by
  unfold getFileRcuMany
  rw [A.addUnless_eq]
  split_ifs <;> rfl

namespace FileState

theorem total_put {f : File} {frees : C → Bool} {freed : ℕ} (hc : 0 < s.refs c) :
    (⟨f, Function.update s.refs c (s.refs c - 1), frees, freed⟩ : FileState C).total =
      s.total - 1 := by
  rw [total_update]
  omega

omit [DecidableEq C] in
theorem Inv.fput (hinv : s.Inv) (hpos : 0 < s.total) :
    ((A.fput s.file).1.f_count.toNat : ℤ) = s.total - 1 ∧
      ((A.fput s.file).2 = true ↔ s.total - 1 = 0) := by
  have hcount := hinv.count
  have hless : (s.file.f_count - 1).toNat = s.file.f_count.toNat - 1 := toNat_sub_one (by omega)
  simp only [A.fput_eq, decide_eq_true_iff]
  rw [← UInt64.toNat_inj, hless, UInt64.toNat_zero]
  omega

end FileState

theorem FileStep.inv (hinv : s.Inv) (hstep : FileStep A s s') : s'.Inv := by
  have hcount := hinv.count
  cases hstep with
  | @get c d hc hroom =>
    refine hinv.grow (s.total_pos hc) ?_
    rw [getFile, A.inc_eq, UInt64.toNat_add]
    exact Nat.mod_eq_of_lt hroom
  | @lookup c cnt hgot hroom =>
    rw [getFileRcuMany_eq] at hgot ⊢
    split_ifs at hgot ⊢ with hzero
    -- `atomic_long_add_unless` has found a reference, so the file is alive
    have hne : s.file.f_count.toNat ≠ 0 := fun h => hzero (UInt64.toNat_inj.mp h)
    refine hinv.grow (by omega) ?_
    rw [UInt64.toNat_add]
    exact Nat.mod_eq_of_lt hroom
  | @lookupFails cnt hgot =>
    rw [getFileRcuMany_eq] at hgot ⊢
    split_ifs at hgot ⊢ with hzero
    exact hinv
  | @put c hc hmore =>
    obtain ⟨hless, hlast⟩ := hinv.fput (A := A) (s.total_pos hc)
    refine ⟨hless.trans (FileState.total_put hc).symm, fun _ => hinv.alive (s.total_pos hc),
      fun hzero => ?_⟩
    rw [hlast.mpr ((FileState.total_put hc).symm.trans hzero)] at hmore
    cases hmore
  | @putLast c hc hzero =>
    obtain ⟨hless, hlast⟩ := hinv.fput (A := A) (s.total_pos hc)
    obtain ⟨hfreed, hnone⟩ := hinv.alive (s.total_pos hc)
    refine ⟨hless.trans (FileState.total_put hc).symm, fun hpos => ?_,
      fun _ => Or.inl ⟨hfreed, c, fun b => ?_⟩⟩
    · rw [FileState.total_put hc] at hpos
      exact absurd (hlast.mp hzero) hpos.ne'
    · change Function.update s.frees c true b = true ↔ b = c
      by_cases hb : b = c
      · simp [hb]
      · simp [hb, hnone b]
  | @free c hc =>
    -- nobody is to free the file while there are references
    have hzero : s.total = 0 := by
      by_contra hne
      have hpos : 0 < s.total := by omega
      rw [(hinv.alive hpos).2 c] at hc
      cases hc
    refine ⟨hcount, fun hpos => ?_, fun _ => Or.inr ?_⟩
    · exact absurd hzero hpos.ne'
    · obtain ⟨hfreed, d, hd⟩ | ⟨-, hnone⟩ := hinv.dead hzero
      · refine ⟨congrArg (· + 1) hfreed, fun b => ?_⟩
        change Function.update s.frees c false b = false
        by_cases hb : b = c
        · simp [hb]
        · rw [Function.update_of_ne hb, Bool.eq_false_iff]
          intro hfrees
          exact hb (((hd b).mp hfrees).trans ((hd c).mp hc).symm)
      · rw [hnone c] at hc
        cases hc

/-- Whatever the order in which clients pass references on, look the file up and drop what they
have: the counter tells how many references there are. While there are any, the file is not freed
and nobody is about to free it; when there are none, it has been freed once, or there is one client
that is to free it. A lookup gets its references just where there are some already. -/
theorem file_freed_once {c₀ : C} (hreach : ReflTransGen (FileStep A)
    ⟨⟨1⟩, Function.update (fun _ => 0) c₀ 1, fun _ => false, 0⟩ s) :
    (fileCount A s.file).toNat = ∑ c, s.refs c ∧
      ((∃ c, 0 < s.refs c) → s.freed = 0 ∧ ∀ c, s.frees c = false) ∧
      ((∀ c, s.refs c = 0) → s.freed = 0 ∧ (∃ c, ∀ b, s.frees b = true ↔ b = c) ∨
        s.freed = 1 ∧ ∀ c, s.frees c = false) ∧
      ∀ cnt, (getFileRcuMany A s.file cnt).2 = true ↔ ∃ c, 0 < s.refs c := by
  have hone : (⟨⟨1⟩, Function.update (fun _ => 0) c₀ 1, fun _ => false, 0⟩ :
      FileState C).total = 1 := by
    unfold FileState.total
    rw [tally_update, tally_const (by rfl)]
    rfl
  have hinit : (⟨⟨1⟩, Function.update (fun _ => 0) c₀ 1, fun _ => false, 0⟩ : FileState C).Inv :=
    ⟨hone.symm, fun _ => ⟨rfl, fun _ => rfl⟩,
      fun hzero => absurd (hone.symm.trans hzero) one_ne_zero⟩
  have hinv := invariant hreach hinit fun _ _ hinv hstep => hstep.inv hinv
  refine ⟨?_, fun hsome => hinv.alive (s.total_pos_iff.mpr hsome), fun hnone => ?_, fun cnt => ?_⟩
  · rw [fileCount, A.read_eq]
    have hsum : s.total = ((∑ c, s.refs c : ℕ) : ℤ) := (Nat.cast_sum ..).symm
    exact Int.ofNat_inj.mp (hinv.count.trans hsum)
  · exact hinv.dead (Finset.sum_eq_zero fun c _ => Int.natCast_eq_zero.mpr (hnone c))
  · rw [getFileRcuMany_eq, ← s.total_pos_iff, ← hinv.count]
    split_ifs with hzero
    · simp [hzero]
    · have hne : s.file.f_count.toNat ≠ 0 := fun h => hzero (UInt64.toNat_inj.mp h)
      simp only [true_iff]
      omega

theorem file_freed_once_two : ∃ s : FileState Bool, (∀ c, s.refs c = 0) ∧ s.freed = 1 ∧
    (fileCount .wrapping s.file).toNat = ∑ c, s.refs c ∧
      ((∃ c, 0 < s.refs c) → s.freed = 0 ∧ ∀ c, s.frees c = false) ∧
      ((∀ c, s.refs c = 0) → s.freed = 0 ∧ (∃ c, ∀ b, s.frees b = true ↔ b = c) ∨
        s.freed = 1 ∧ ∀ c, s.frees c = false) ∧
      ∀ cnt, (getFileRcuMany .wrapping s.file cnt).2 = true ↔ ∃ c, 0 < s.refs c := by
  have hreach := (((((ReflTransGen.refl (r := FileStep .wrapping)
    (a := ⟨⟨1⟩, Function.update (fun _ => 0) true 1, fun _ => false, 0⟩)).tail
    (.get (c := true) false (by decide) (by decide))).tail
    (.put (c := true) (by decide) rfl)).tail
    (.putLast (c := false) (by decide) rfl)).tail
    (@FileStep.lookupFails _ _ _ _ 1 rfl)).tail
    (.free (c := false) rfl)
  exact ⟨_, by decide, rfl, file_freed_once hreach⟩

end GoodCommand.Fs
