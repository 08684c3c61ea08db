import Mathlib

/-! Lists rearranged into blocks of equal elements. -/

namespace GoodCommand

variable {α β : Type}

section Blocks

variable [DecidableEq α] {l cs : List α}

def blocks (l cs : List α) : List α := cs.flatMap fun a => List.replicate (l.count a) a

theorem blocks_cons (l : List α) (a : α) (cs : List α) :
    blocks l (a :: cs) = List.replicate (l.count a) a ++ blocks l cs := List.flatMap_cons

theorem count_blocks_of_notMem {a : α} (h : a ∉ cs) : (blocks l cs).count a = 0 := by
  induction cs with
  | nil => rfl
  | cons b cs ih =>
    obtain ⟨hne, hcs⟩ := List.ne_and_not_mem_of_not_mem_cons h
    rw [blocks_cons, List.count_append, ih hcs, List.count_replicate,
      if_neg (by simpa using hne.symm)]

theorem count_blocks_of_mem (hnd : cs.Nodup) {a : α} (h : a ∈ cs) :
    (blocks l cs).count a = l.count a := by
  induction cs with
  | nil => cases h
  | cons b cs ih =>
    obtain ⟨hb, hcs⟩ := List.nodup_cons.mp hnd
    rw [blocks_cons, List.count_append, List.count_replicate]
    rcases List.mem_cons.mp h with rfl | h
    · rw [if_pos (beq_self_eq_true a), count_blocks_of_notMem hb, add_zero]
    · have hne : b ≠ a := fun heq => hb (heq ▸ h)
      rw [if_neg (by simpa using hne), ih hcs h, zero_add]

theorem blocks_perm (hnd : cs.Nodup) (hall : ∀ a ∈ l, a ∈ cs) : (blocks l cs).Perm l := by
  refine List.perm_iff_count.mpr fun a => ?_
  by_cases h : a ∈ cs
  · exact count_blocks_of_mem hnd h
  · rw [count_blocks_of_notMem h, List.count_eq_zero.mpr fun hl => h (hall a hl)]

end Blocks

theorem takeWhile_eq_filter [Preorder β] [DecidableLT β] {f : α → β} {b : β} {l : List α}
    (h : l.Pairwise fun x y => f y ≤ f x) :
    l.takeWhile (fun x => b < f x) = l.filter (fun x => b < f x) := by
  induction l with
  | nil => rfl
  | cons a l ih =>
    obtain ⟨ha, hl⟩ := List.pairwise_cons.mp h
    by_cases hlt : b < f a
    · rw [List.takeWhile_cons_of_pos (by simpa using hlt),
        List.filter_cons_of_pos (by simpa using hlt), ih hl]
    · rw [List.takeWhile_cons_of_neg (by simpa using hlt),
        List.filter_cons_of_neg (by simpa using hlt)]
      refine (List.filter_eq_nil_iff.mpr fun x hx hpos => ?_).symm
      exact hlt ((of_decide_eq_true hpos).trans_le (ha x hx))

end GoodCommand
