import Mathlib

/-! Arrays of C programs: every read and write is checked against the length. -/

namespace GoodCommand

structure OutOfBounds where
  index : ℤ
  deriving DecidableEq

namespace Arr

variable {α : Type} {a : List α} {i : ℕ} {v : α}

def get (a : List α) (i : ℤ) : Except OutOfBounds α :=
  if 0 ≤ i then
    match a[i.toNat]? with
    | some v => .ok v
    | none => .error ⟨i⟩
  else .error ⟨i⟩

def set (a : List α) (i : ℤ) (v : α) : Except OutOfBounds (List α) :=
  if 0 ≤ i ∧ i < a.length then .ok (a.set i.toNat v) else .error ⟨i⟩

/-- An array of `n` entries; `init` is what the memory holds. A negative `n` would be a huge
`size_t`. -/
def malloc (init : ℕ → α) (n : ℤ) : Except OutOfBounds (List α) :=
  if 0 ≤ n then .ok ((List.range n.toNat).map init) else .error ⟨n⟩

theorem get_eq (h : a[i]? = some v) : get a (i : ℤ) = .ok v := by
  simp [get, h]

theorem exists_index_of_get {j : ℤ} (h : get a j = .ok v) : ∃ n : ℕ, j = n ∧ a[n]? = some v := by
  unfold get at h
  split_ifs at h with hj
  refine ⟨j.toNat, (Int.toNat_of_nonneg hj).symm, ?_⟩
  cases hv : a[j.toNat]? with
  | none => rw [hv] at h; cases h
  | some u => rw [hv] at h; cases h; rfl

theorem get_append_cons (pre suf : List α) (v : α) {j : ℤ} (hj : j = pre.length) :
    get (pre ++ v :: suf) j = .ok v := by
  rw [hj]
  exact get_eq (by simp)

theorem set_eq (h : i < a.length) (v : α) : set a (i : ℤ) v = .ok (a.set i v) := by
  simp [set, h]

theorem set_append_cons (pre suf : List α) (u v : α) {j : ℤ} (hj : j = pre.length) :
    set (pre ++ u :: suf) j v = .ok (pre ++ v :: suf) := by
  rw [hj, set_eq (by simp), List.set_append_right _ _ le_rfl]
  simp

theorem get_of_neg {j : ℤ} (h : j < 0) (a : List α) : get a j = .error ⟨j⟩ := if_neg (by omega)

theorem set_of_neg {j : ℤ} (h : j < 0) (a : List α) (v : α) : set a j v = .error ⟨j⟩ :=
  if_neg (by omega)

theorem malloc_natCast (init : ℕ → α) {j : ℤ} {n : ℕ} (h : j = n) :
    malloc init j = .ok ((List.range n).map init) := by
  simp [malloc, h]

theorem malloc_const (v : α) {j : ℤ} {n : ℕ} (h : j = n) :
    malloc (fun _ => v) j = .ok (List.replicate n v) := by
  rw [malloc_natCast _ h, List.map_const', List.length_range]

/-! ### Loops that fill an array -/

section Fill

variable {ε σ ι : Type}

theorem foldlM_writes {step : σ → ι → Except ε σ} (state : List α → ℕ → σ) (f : ι → α) {N : ℕ}
    {xs : List ι}
    (hstep : ∀ done x todo, xs = done ++ x :: todo → ∀ u suf, done.length + 1 + suf.length = N →
      step (state (done.map f ++ u :: suf) done.length) x =
        .ok (state (done.map f ++ f x :: suf) (done.length + 1)))
    (ha : a.length = N) (hle : xs.length ≤ N) :
    xs.foldlM step (state a 0) = .ok (state (xs.map f ++ a.drop xs.length) xs.length) := by
  suffices h : ∀ todo done, xs = done ++ todo → ∀ rest, done.length + rest.length = N →
      todo.length ≤ rest.length → todo.foldlM step (state (done.map f ++ rest) done.length) =
        .ok (state (xs.map f ++ rest.drop todo.length) xs.length) from
    h xs [] rfl a (by simpa using ha) (by omega)
  intro todo
  induction todo with
  | nil =>
    intro done hxs rest _ _
    rw [List.append_nil] at hxs
    rw [hxs]
    rfl
  | cons x todo ih =>
    intro done hxs rest hN hlen
    cases rest with
    | nil => exact absurd hlen (by simp)
    | cons u suf =>
      simp only [List.length_cons] at hN hlen
      have hrest := ih (done ++ [x]) (by rw [hxs, List.append_assoc]; rfl) suf
        (by rw [List.length_append, List.length_singleton]; omega) (by omega)
      rw [List.foldlM_cons, hstep done x todo hxs u suf (by omega), List.length_cons,
        List.drop_succ_cons, ← hrest, List.map_append, List.append_assoc, List.length_append]
      rfl

theorem eq_length_of_range {n x : ℕ} {done todo : List ℕ} (h : List.range n = done ++ x :: todo) :
    x = done.length ∧ done.length < n := by
  have hlen := congrArg List.length h
  simp only [List.length_range, List.length_append, List.length_cons] at hlen
  have hx : (List.range n)[done.length]? = some x := by
    rw [h, List.getElem?_append_right le_rfl]
    simp
  rw [List.getElem?_range (by omega)] at hx
  exact ⟨(Option.some.inj hx).symm, by omega⟩

theorem foldlM_range_writes {step : List α → ℕ → Except ε (List α)} {ys : List α}
    (hstep : ∀ pre v post, ys = pre ++ v :: post → ∀ u suf,
      step (pre ++ u :: suf) pre.length = .ok (pre ++ v :: suf))
    {n : ℕ} (hn : n = ys.length) (hle : n ≤ a.length) :
    (List.range n).foldlM step a = .ok (ys ++ a.drop n) := by
  subst hn
  have hsnd : ys.zipIdx.map Prod.snd = List.range ys.length := by
    rw [List.zipIdx_map_snd, List.range_eq_range']
  have h : ys.zipIdx.foldlM (fun a p => step a p.2) a =
      .ok (ys.zipIdx.map Prod.fst ++ a.drop ys.zipIdx.length) := by
    refine foldlM_writes (fun a _ => a) Prod.fst (fun done x todo hxs u suf _ => ?_) rfl
      (by simpa using hle)
    have hidx := congrArg (List.map Prod.snd) hxs
    have hys := congrArg (List.map Prod.fst) hxs
    rw [hsnd, List.map_append, List.map_cons] at hidx
    rw [List.zipIdx_map_fst, List.map_append, List.map_cons] at hys
    have hpos := (eq_length_of_range hidx).1
    have hrun := hstep _ _ _ hys u suf
    rw [List.length_map] at hpos hrun
    rw [hpos]
    exact hrun
  rwa [List.zipIdx_map_fst, List.length_zipIdx, ← List.foldlM_map, hsnd] at h

end Fill

end Arr

end GoodCommand
