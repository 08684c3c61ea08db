import GoodCommand.SmallestPairs.Defs
import GoodCommand.SumK.Defs

/-! The comparisons that are passed to `qsort`: `cpmSum` of `kSmallestPairs.c`, `Compare` of
`sumk.c` and `sort_function_int` of `qsort.c`. Each is a difference of two `int`s. -/

namespace GoodCommand.Comparators
open SmallestPairs SumK

def sortFunctionInt (a b : CInt) : CInt := CInt.wrap (a.val - b.val)

/-- The signs that `cmp` returns on the elements of `l` are those of the order of the keys, and
order the elements as `qsort` requires. -/
structure Orders {α : Type} (cmp : α → α → CInt) (key : α → CInt) (l : List α) : Prop where
  sign : SignAgrees cmp (fun a => (key a).val) l
  consistent : Consistent cmp l

theorem orders_iff {α : Type} {cmp : α → α → CInt} {key : α → CInt}
    (h : ∀ a b, cmp a b = CInt.wrap ((key a).val - (key b).val)) (l : List α) :
    Orders cmp key l ↔ ∀ a ∈ l, ∀ b ∈ l, FitsInt ((key a).val - (key b).val) := by
  rw [← signAgrees_wrap_sub_iff h]
  exact ⟨Orders.sign, fun hsign => ⟨hsign, hsign.consistent⟩⟩

/-- Three elements are ordered by their keys exactly when no two of the keys are further apart than
an `int` can tell. -/
theorem comparators_order_iff (s t u : SumAll) (a b c : CInt) :
    (Orders cpmSum SumAll.sum [s, t, u] ↔
      ∀ x ∈ [s, t, u], ∀ y ∈ [s, t, u], FitsInt (x.sum.val - y.sum.val)) ∧
    (Orders compare id [a, b, c] ↔
      ∀ x ∈ [a, b, c], ∀ y ∈ [a, b, c], FitsInt (x.val - y.val)) ∧
    (Orders sortFunctionInt id [a, b, c] ↔
      ∀ x ∈ [a, b, c], ∀ y ∈ [a, b, c], FitsInt (x.val - y.val)) :=
  ⟨orders_iff (fun _ _ => rfl) _, orders_iff (fun _ _ => rfl) _, orders_iff (fun _ _ => rfl) _⟩

def distantKeys : List CInt := [CInt.wrap (-2000000000), CInt.zero, CInt.wrap 2000000000]

/-- The keys of `distantKeys` come in a cycle: each is less than the next, and the last less than
the first. -/
theorem distant_keys_not_ordered :
    ¬ Orders cpmSum SumAll.sum (distantKeys.map fun v => ⟨v, CInt.zero, v⟩) ∧
      ¬ Orders compare id distantKeys ∧ ¬ Orders sortFunctionInt id distantKeys := by
  -- all three return the same sign for the first and the last key
  have hwrong :
      ¬ (CInt.wrap ((CInt.wrap (-2000000000)).val - (CInt.wrap 2000000000).val)).val ≤ 0 := by
    decide
  refine ⟨fun h => hwrong ?_, fun h => hwrong ?_, fun h => hwrong ?_⟩
  · exact h.consistent.trans ⟨CInt.wrap (-2000000000), CInt.zero, CInt.wrap (-2000000000)⟩
      (by decide) ⟨CInt.zero, CInt.zero, CInt.zero⟩ (by decide)
      ⟨CInt.wrap 2000000000, CInt.zero, CInt.wrap 2000000000⟩ (by decide) (by decide) (by decide)
  · exact h.consistent.trans (CInt.wrap (-2000000000)) (by decide) CInt.zero (by decide)
      (CInt.wrap 2000000000) (by decide) (by decide) (by decide)
  · exact h.consistent.trans (CInt.wrap (-2000000000)) (by decide) CInt.zero (by decide)
      (CInt.wrap 2000000000) (by decide) (by decide) (by decide)

end GoodCommand.Comparators
