import Mathlib

/-! How many pairs of entries of a list a relation holds of. -/

namespace GoodCommand

variable {α : Type} {r : α → α → Prop} [DecidableRel r] {l l' : List α} {x y : α}

def pairCount (r : α → α → Prop) [DecidableRel r] : List α → ℕ
  | [] => 0
  | x :: l => l.countP (fun y => decide (r x y)) + pairCount r l

theorem pairCount_cons :
    pairCount r (x :: l) = l.countP (fun y => decide (r x y)) + pairCount r l := rfl

theorem pairCount_perm (hr : ∀ x y, r x y ↔ r y x) (h : l.Perm l') :
    pairCount r l = pairCount r l' := by
  induction h with
  | nil => rfl
  | cons x hperm ih => rw [pairCount_cons, pairCount_cons, hperm.countP_eq, ih]
  | swap x y l =>
    simp only [pairCount_cons, List.countP_cons, hr x y]
    omega
  | trans _ _ ih₁ ih₂ => exact ih₁.trans ih₂

theorem pairCount_concat :
    pairCount r (l ++ [y]) = pairCount r l + l.countP (fun x => decide (r x y)) := by
  induction l with
  | nil => rfl
  | cons x l ih =>
    simp only [List.cons_append, pairCount_cons, ih, List.countP_append, List.countP_cons,
      List.countP_nil]
    omega

theorem pairCount_first (h : ∀ y ∈ l, r x y) : pairCount r (x :: l) = l.length + pairCount r l := by
  rw [pairCount_cons, List.countP_eq_length.mpr fun y hy => decide_eq_true (h y hy)]

theorem pairCount_last (h : ∀ x ∈ l, ¬ r x y) : pairCount r (l ++ [y]) = pairCount r l := by
  rw [pairCount_concat, List.countP_eq_zero.mpr fun x hx => by simpa using h x hx, add_zero]

theorem pairCount_le (r : α → α → Prop) [DecidableRel r] (l : List α) :
    pairCount r l ≤ l.length * l.length := by
  induction l with
  | nil => exact le_rfl
  | cons x l ih =>
    have hle : l.countP (fun y => decide (r x y)) ≤ l.length := List.countP_le_length
    rw [pairCount_cons, List.length_cons]
    nlinarith

theorem pairCount_mono {r' : α → α → Prop} [DecidableRel r'] (h : ∀ x y, r x y → r' x y)
    (l : List α) : pairCount r l ≤ pairCount r' l := by
  induction l with
  | nil => exact le_rfl
  | cons x l ih =>
    refine Nat.add_le_add (List.countP_mono_left fun y _ hy => ?_) ih
    exact decide_eq_true (h x y (of_decide_eq_true hy))

theorem pairCount_lt (hy : y ∈ l) (h : ¬ r x y) :
    pairCount r (x :: l) < pairCount (fun _ _ => True) (x :: l) := by
  have hmono : pairCount r l ≤ pairCount (fun _ _ => True) l :=
    pairCount_mono (fun _ _ _ => trivial) l
  have hlt : l.countP (fun y => decide (r x y)) < l.length :=
    List.countP_lt_length_iff.mpr ⟨y, hy, decide_eq_false h⟩
  rw [pairCount_cons, pairCount_first fun _ _ => trivial]
  omega

theorem pairCount_pos (hx : x ∈ l) (h : r x y) : 0 < pairCount r (l ++ [y]) := by
  rw [pairCount_concat]
  exact Nat.add_pos_right _ (List.countP_pos_iff.mpr ⟨x, hx, decide_eq_true h⟩)

theorem pairCount_false (l : List α) : pairCount (fun _ _ => False) l = 0 := by
  induction l with
  | nil => rfl
  | cons x l ih =>
    rw [pairCount_cons, ih]
    simp

/-! ### The index pairs -/

theorem countP_eq_sum (p : α → Bool) (l : List α) :
    l.countP p = ∑ i : Fin l.length, if p l[i] then 1 else 0 := by
  induction l with
  | nil => rfl
  | cons x l ih =>
    have hsum := Fin.sum_univ_succ fun i : Fin (l.length + 1) => if p (x :: l)[i] then 1 else 0
    rw [List.countP_cons, ih, add_comm]
    exact hsum.symm

theorem pairCount_eq_card (r : α → α → Prop) [DecidableRel r] (l : List α) :
    pairCount r l = ((Finset.univ : Finset (Fin l.length × Fin l.length)).filter fun p =>
      p.1 < p.2 ∧ r l[p.1] l[p.2]).card := by
  rw [Finset.card_filter, Fintype.sum_prod_type]
  induction l with
  | nil => rfl
  | cons x l ih =>
    have hrows := Fin.sum_univ_succ fun i : Fin (l.length + 1) =>
      ∑ j : Fin (l.length + 1), if i < j ∧ r (x :: l)[i] (x :: l)[j] then 1 else 0
    refine Eq.trans ?_ hrows.symm
    have hrow : ∀ i : Fin (l.length + 1),
        (∑ j : Fin (l.length + 1), if i < j ∧ r (x :: l)[i] (x :: l)[j] then 1 else 0) =
        ∑ j : Fin l.length, if i < j.succ ∧ r (x :: l)[i] l[j] then 1 else 0 := by
      intro i
      rw [Fin.sum_univ_succ, if_neg (fun h => Nat.not_lt_zero _ h.1), zero_add]
      rfl
    rw [pairCount_cons, ih, countP_eq_sum]
    simp only [hrow]
    congr 1
    · exact Finset.sum_congr rfl fun j _ => by simp
    · refine Finset.sum_congr rfl fun i _ => Finset.sum_congr rfl fun j _ => ?_
      simp only [Fin.succ_lt_succ_iff]
      rfl

end GoodCommand
