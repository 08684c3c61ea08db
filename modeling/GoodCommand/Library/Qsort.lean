import GoodCommand.Library.Arr
import GoodCommand.Library.CInt

/-! `qsort` of the C library: all that is known of it is that it sorts, and this only for
comparisons that order the elements. -/

namespace GoodCommand

variable {α β ι : Type}

/-- `cmp` puts the elements of `l` in an order, in which some may be equal. -/
structure Consistent (cmp : α → α → CInt) (l : List α) : Prop where
  antisymm : ∀ a ∈ l, ∀ b ∈ l, (cmp a b).val < 0 ↔ 0 < (cmp b a).val
  trans : ∀ a ∈ l, ∀ b ∈ l, ∀ c ∈ l, (cmp a b).val ≤ 0 → (cmp b c).val ≤ 0 → (cmp a c).val ≤ 0

/-- The sign of `cmp` is that of the difference of the keys. -/
def SignAgrees (cmp : α → α → CInt) (key : α → ℤ) (l : List α) : Prop :=
  ∀ a ∈ l, ∀ b ∈ l, SignType.sign (cmp a b).val = SignType.sign (key a - key b)

theorem SignAgrees.consistent {cmp : α → α → CInt} {key : α → ℤ} {l : List α}
    (h : SignAgrees cmp key l) : Consistent cmp l where
  antisymm a ha b hb := by
    rw [← sign_eq_neg_one_iff, ← sign_eq_one_iff, h a ha b hb, h b hb a ha, sign_eq_neg_one_iff,
      sign_eq_one_iff]
    omega
  trans a ha b hb c hc hab hbc := by
    rw [← sign_nonpos_iff, h a ha b hb, sign_nonpos_iff] at hab
    rw [← sign_nonpos_iff, h b hb c hc, sign_nonpos_iff] at hbc
    rw [← sign_nonpos_iff, h a ha c hc, sign_nonpos_iff]
    omega

theorem Consistent.of_key {cmp : α → α → CInt} {l : List α} (key : α → ℤ)
    (h : ∀ a ∈ l, ∀ b ∈ l, (cmp a b).val = key a - key b) : Consistent cmp l :=
  SignAgrees.consistent fun a ha b hb => congrArg SignType.sign (h a ha b hb)

/-- A comparison by a difference in 32 bits orders exactly the elements whose differences are
`int`s. -/
theorem signAgrees_wrap_sub_iff {cmp : α → α → CInt} {key : α → CInt}
    (h : ∀ a b, cmp a b = CInt.wrap ((key a).val - (key b).val)) (l : List α) :
    SignAgrees cmp (fun a => (key a).val) l ↔
      ∀ a ∈ l, ∀ b ∈ l, FitsInt ((key a).val - (key b).val) := by
  simp only [SignAgrees, h, CInt.sign_wrap_sub_iff]

structure Qsort (α : Type) where
  sort : (α → α → CInt) → List α → List α
  perm : ∀ cmp l, Consistent cmp l → (sort cmp l).Perm l
  sorted : ∀ cmp l, Consistent cmp l → (sort cmp l).Pairwise fun a b => (cmp a b).val ≤ 0

namespace Qsort

/-- `qsort(base, nmemb, size, cmp)`. A negative `nmemb` would be a huge `size_t`. -/
def run (q : Qsort α) (base : List α) (nmemb : ℤ) (cmp : α → α → CInt) :
    Except OutOfBounds (List α) :=
  if 0 ≤ nmemb ∧ nmemb ≤ base.length then
    .ok (q.sort cmp (base.take nmemb.toNat) ++ base.drop nmemb.toNat)
  else .error ⟨nmemb⟩

theorem run_length (q : Qsort α) (base : List α) (cmp : α → α → CInt) {nmemb : ℤ}
    (h : nmemb = base.length) : q.run base nmemb cmp = .ok (q.sort cmp base) := by
  simp [run, h]

/-- A `qsort` that inserts one element after the other. -/
def insertion (α : Type) : Qsort α where
  sort cmp l := (l.attach.insertionSort fun a b => (cmp a.1 b.1).val ≤ 0).map Subtype.val
  perm cmp l _ := by
    have h := (List.perm_insertionSort (fun a b => (cmp a.1 b.1).val ≤ 0) l.attach).map Subtype.val
    rwa [List.attach_map_subtype_val] at h
  sorted cmp l h := by
    have : Std.Total fun a b : {x // x ∈ l} => (cmp a.1 b.1).val ≤ 0 := ⟨fun a b => by
      have := h.antisymm b.1 b.2 a.1 a.2
      omega⟩
    have : IsTrans _ fun a b : {x // x ∈ l} => (cmp a.1 b.1).val ≤ 0 :=
      ⟨fun a b c hab hbc => h.trans a.1 a.2 b.1 b.2 c.1 c.2 hab hbc⟩
    exact List.pairwise_map.mpr (List.pairwise_insertionSort _ l.attach)

/-- A `qsort` that returns what it likes where the comparison puts nothing in an order. -/
noncomputable def lawless (f : List α → List α) : Qsort α :=
  open Classical in {
    sort := fun cmp l => if Consistent cmp l then (insertion α).sort cmp l else f l
    perm := fun cmp l h => by
      rw [if_pos h]
      exact (insertion α).perm cmp l h
    sorted := fun cmp l h => by
      rw [if_pos h]
      exact (insertion α).sorted cmp l h }

theorem lawless_sort {f : List α → List α} {cmp : α → α → CInt} {l : List α}
    (h : ¬ Consistent cmp l) : (lawless f).sort cmp l = f l := if_neg h

/-- Of entries that come from an indexed family, a sorted array comes from a reordering of the
indices. -/
theorem exists_reorder {q : Qsort α} {cmp : α → α → CInt} {f : ι → α} {idx : List ι}
    (h : Consistent cmp (idx.map f)) :
    ∃ idx' : List ι, idx'.Perm idx ∧ q.sort cmp (idx.map f) = idx'.map f ∧
      idx'.Pairwise fun a b => (cmp (f a) (f b)).val ≤ 0 := by
  have hrel : List.Forall₂ (fun a i => a = f i) (idx.map f) idx := by
    rw [List.forall₂_map_left_iff]
    exact List.forall₂_same.mpr fun _ _ => rfl
  obtain ⟨idx', heq, hperm⟩ := List.perm_comp_forall₂ (q.perm cmp _ h) hrel
  have hmap : q.sort cmp (idx.map f) = idx'.map f := by
    rw [← List.forall₂_eq_eq_eq, List.forall₂_map_right_iff]
    exact heq
  have hsorted := q.sorted cmp _ h
  rw [hmap, List.pairwise_map] at hsorted
  exact ⟨idx', hperm, hmap, hsorted⟩

end Qsort

/-! ### Selections -/

/-- `sel` are the indices of the smallest keys, from the smallest on, each index once. -/
structure Smallest [Preorder β] (key : ι → β) (sel : List ι) : Prop where
  nodup : sel.Nodup
  sorted : sel.Pairwise fun a b => key a ≤ key b
  le_of_notMem : ∀ a ∈ sel, ∀ b, b ∉ sel → key a ≤ key b

theorem Smallest.take [Preorder β] {key : ι → β} {l : List ι} (hall : ∀ a, a ∈ l) (hnd : l.Nodup)
    (hsorted : l.Pairwise fun a b => key a ≤ key b) (k : ℕ) : Smallest key (l.take k) where
  nodup := hnd.sublist (List.take_sublist k l)
  sorted := hsorted.sublist (List.take_sublist k l)
  le_of_notMem a ha b hb := by
    have hsplit := List.take_append_drop k l
    rw [← hsplit, List.pairwise_append] at hsorted
    have hdrop : b ∈ l.drop k := by
      have hmem := hall b
      rw [← hsplit, List.mem_append] at hmem
      exact hmem.resolve_left hb
    exact hsorted.2.2 a ha b hdrop

end GoodCommand
