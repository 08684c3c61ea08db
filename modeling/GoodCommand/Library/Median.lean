import Mathlib

/-! The middle of a sorted list, and its median. -/

namespace GoodCommand

variable {α : Type} {l : List α}

structure Middles (l : List α) (a b : α) : Prop where
  even : Even l.length
  lower : l[l.length / 2 - 1]? = some a
  upper : l[l.length / 2]? = some b

theorem exists_middle (hne : l ≠ []) : ∃ v, l[l.length / 2]? = some v := by
  have hpos := List.length_pos_of_ne_nil hne
  exact ⟨_, List.getElem?_eq_getElem (by omega)⟩

theorem exists_middles (hne : l ≠ []) (heven : Even l.length) : ∃ a b, Middles l a b := by
  have hpos := List.length_pos_of_ne_nil hne
  obtain ⟨b, hb⟩ := exists_middle hne
  exact ⟨_, b, heven, List.getElem?_eq_getElem (by omega), hb⟩

theorem Middles.unique {a b a' b' : α} (h : Middles l a b) (h' : Middles l a' b') :
    a = a' ∧ b = b' :=
  ⟨Option.some.inj (h.lower.symm.trans h'.lower), Option.some.inj (h.upper.symm.trans h'.upper)⟩

theorem Middles.le [Preorder α] {a b : α} (h : Middles l a b) (hsorted : l.Pairwise (· ≤ ·)) :
    a ≤ b := by
  obtain ⟨hi, rfl⟩ := List.getElem?_eq_some_iff.mp h.lower
  obtain ⟨hj, rfl⟩ := List.getElem?_eq_some_iff.mp h.upper
  have heven := Nat.even_iff.mp h.even
  exact List.pairwise_iff_getElem.mp hsorted _ _ hi hj (by omega)

/-- The median of a sorted list of numbers, which `val` gives the values of. -/
inductive IsMedian (val : α → ℚ) (l : List α) : ℚ → Prop
  | odd {v : α} : Odd l.length → l[l.length / 2]? = some v → IsMedian val l (val v)
  | even {a b : α} : Middles l a b → IsMedian val l ((val a + val b) / 2)

end GoodCommand
