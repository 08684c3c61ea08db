import GoodCommand.KernelList.Runs
import GoodCommand.Library.RingLists

/-! What the functions of `linux/list.h` are for: lists, each under its head. -/

namespace GoodCommand.KernelList
open GoodCommand.Lists (set_comm set_after_drop set_self set_of_ne set_set set_eq_self getLastD_mem)

variable {A : Type} [DecidableEq A]

/-- A cell of `S` that is neither a head nor an entry. -/
def Fresh (S : Finset A) (T : Lists A) (a : A) : Prop := a ∈ S ∧ ¬T.Has a

/-- The calls as they are meant, with what they make of the lists. -/
inductive Step (S : Finset A) (T : Lists A) : Op A → Lists A → Prop where
  | init {list : A} (hlist : Fresh S T list) : Step S T (.init list) (T.set list [])
  | initEmpty {list : A} (hlist : T list = some []) : Step S T (.init list) T
  | add {new head : A} {xs : List A} (hnew : Fresh S T new) (hhead : T head = some xs) :
      Step S T (.add new head) (T.set head (new :: xs))
  | addTail {new head : A} {xs : List A} (hnew : Fresh S T new) (hhead : T head = some xs) :
      Step S T (.addTail new head) (T.set head (xs ++ [new]))
  | delClearprev {entry head : A} {as bs : List A} (hhead : T head = some (as ++ entry :: bs)) :
      Step S T (.delClearprev entry) (T.set head (as ++ bs))
  | del {entry head : A} {as bs : List A} (hhead : T head = some (as ++ entry :: bs)) :
      Step S T (.del entry) (T.set head (as ++ bs))
  | delInit {entry head : A} {as bs : List A} (hhead : T head = some (as ++ entry :: bs)) :
      Step S T (.delInit entry) (T.set head (as ++ bs))
  | replace {old new head : A} {as bs : List A} (hnew : Fresh S T new)
      (hhead : T head = some (as ++ old :: bs)) :
      Step S T (.replace old new) (T.set head (as ++ new :: bs))
  | replaceHead {old new : A} {xs : List A} (hnew : Fresh S T new) (hold : T old = some xs) :
      Step S T (.replace old new) ((T.drop old).set new xs)
  | replaceInit {old new head : A} {as bs : List A} (hnew : Fresh S T new)
      (hhead : T head = some (as ++ old :: bs)) :
      Step S T (.replaceInit old new) (T.set head (as ++ new :: bs))
  | replaceInitHead {old new : A} {xs : List A} (hnew : Fresh S T new) (hold : T old = some xs) :
      Step S T (.replaceInit old new) ((T.set old []).set new xs)
  | swap {entry1 entry2 head1 head2 : A} {xs ys : List A} (hne : entry1 ≠ entry2)
      (hhead1 : T head1 = some xs) (hentry1 : entry1 ∈ xs) (hhead2 : T head2 = some ys)
      (hentry2 : entry2 ∈ ys) :
      Step S T (.swap entry1 entry2) fun head => (T head).map (List.map (Equiv.swap entry1 entry2))
  | move {list head home : A} {as bs xs : List A} (hhome : T home = some (as ++ list :: bs))
      (hhead : T.set home (as ++ bs) head = some xs) :
      Step S T (.move list head) ((T.set home (as ++ bs)).set head (list :: xs))
  | moveTail {list head home : A} {as bs xs : List A} (hhome : T home = some (as ++ list :: bs))
      (hhead : T.set home (as ++ bs) head = some xs) :
      Step S T (.moveTail list head) ((T.set home (as ++ bs)).set head (xs ++ [list]))
  | bulkMoveTail {head first last : A} {as bs cs : List A}
      (hhead : T head = some (as ++ (bs ++ cs))) (hfirst : bs.head? = some first)
      (hlast : bs.getLast? = some last) :
      Step S T (.bulkMoveTail head first last) (T.set head (as ++ cs ++ bs))
  | rotateLeft {head : A} {xs : List A} (hhead : T head = some xs) :
      Step S T (.rotateLeft head) (T.set head (xs.rotate 1))
  | rotateToFront {list head : A} {as bs : List A} (hhead : T head = some (as ++ list :: bs)) :
      Step S T (.rotateToFront list head) (T.set head (list :: (bs ++ as)))
  | cutPosition {list head : A} {as bs : List A} (hlist : Fresh S T list)
      (hhead : T head = some (as ++ bs)) (hne : as ++ bs ≠ []) :
      Step S T (.cutPosition list head (as.getLastD head)) ((T.set list as).set head bs)
  | cutPositionEmpty {list head : A} (hlist : Fresh S T list) (hhead : T head = some []) :
      Step S T (.cutPosition list head head) T
  | cutBefore {list head : A} {as bs : List A} (hlist : Fresh S T list)
      (hhead : T head = some (as ++ bs)) :
      Step S T (.cutBefore list head (bs.headD head)) ((T.set list as).set head bs)
  | splice {list head : A} {xs ys : List A} (hne : list ≠ head) (hlist : T list = some ys)
      (hhead : T head = some xs) (hys : ys ≠ []) :
      Step S T (.splice list head) ((T.drop list).set head (ys ++ xs))
  | spliceEmpty {list head : A} {xs : List A} (hne : list ≠ head) (hlist : T list = some [])
      (hhead : T head = some xs) : Step S T (.splice list head) T
  | spliceTail {list head : A} {xs ys : List A} (hne : list ≠ head) (hlist : T list = some ys)
      (hhead : T head = some xs) (hys : ys ≠ []) :
      Step S T (.spliceTail list head) ((T.drop list).set head (xs ++ ys))
  | spliceTailEmpty {list head : A} {xs : List A} (hne : list ≠ head) (hlist : T list = some [])
      (hhead : T head = some xs) : Step S T (.spliceTail list head) T
  | spliceInit {list head : A} {xs ys : List A} (hne : list ≠ head) (hlist : T list = some ys)
      (hhead : T head = some xs) :
      Step S T (.spliceInit list head) ((T.set list []).set head (ys ++ xs))
  | spliceTailInit {list head : A} {xs ys : List A} (hne : list ≠ head) (hlist : T list = some ys)
      (hhead : T head = some xs) :
      Step S T (.spliceTailInit list head) ((T.set list []).set head (xs ++ ys))

variable {S : Finset A} {T T' : Lists A} {r : Rings A} {op : Op A} {head : A} {as bs xs : List A}

omit [DecidableEq A] in
theorem prev_eq (hring : RingAt r.next head xs) : r.next⁻¹ head = xs.getLastD head := by
  rw [Equiv.Perm.inv_eq_iff_eq]
  rw [← List.append_nil xs] at hring
  exact hring.apply_getLastD.symm

omit [DecidableEq A] in
theorem next_eq (hring : RingAt r.next head xs) : r.next head = xs.headD head := by
  rw [← List.nil_append xs] at hring
  exact hring.apply_getLastD

omit [DecidableEq A] in
theorem next_ne {list : A} {ys : List A} (hT : T.Holds r) (hhead : T head = some xs)
    (hlist : T list = some ys) (hne : list ≠ head) : r.next head ≠ list := fun heq =>
  hT.disjoint hhead hlist hne ((hT.ring _ _ hhead).apply_mem List.mem_cons_self) (by simp [heq])

/-! ### What the calls on several entries make of the rings -/

theorem bulkMoved_holds {first last : A} {cs : List A} (hT : T.Holds r)
    (hhead : T head = some (as ++ (bs ++ cs))) (hfirst : bs.head? = some first)
    (hlast : bs.getLast? = some last) :
    (T.set head (as ++ cs ++ bs)).Holds (bulkMoved r head first last) := by
  obtain ⟨bs, rfl⟩ := List.getLast?_eq_some_iff.mp hlast
  have hprev : r.next⁻¹ first = as.getLastD head := by
    rw [Equiv.Perm.inv_eq_iff_eq, (hT.ring _ _ hhead).apply_getLastD, List.headD_eq_head?_getD,
      List.head?_append_of_ne_nil _ (by simp), hfirst]
    rfl
  rw [List.append_assoc, List.singleton_append] at hhead
  -- the entries are cut out first, so the new end of the list is that of what is left
  have hprev' : (r.exchange (as.getLastD head) last).next⁻¹ head = (as ++ cs).getLastD head :=
    prev_eq (hT.ring _ _ hhead).splitAt.1
  rw [bulkMoved, hprev, hprev']
  exact hT.moveToEnd hhead

theorem rotatedLeft_holds (hT : T.Holds r) (hhead : T head = some xs) :
    (T.set head (xs.rotate 1)).Holds (rotatedLeft r head) := by
  have hring := hT.ring _ _ hhead
  cases xs with
  | nil =>
    rw [rotatedLeft, if_pos (ringAt_nil_iff.mp hring), List.rotate_nil, set_eq_self hhead]
    exact hT
  | cons x xs =>
    have hT' : (T.set head xs).Holds (r.leave x) :=
      hT.leave (show T head = some ([] ++ x :: xs) from hhead)
    have hself : r.next head ≠ head := fun hself => by
      simpa using hring.apply_head_eq_iff.mp hself
    have hprev : (r.leave x).next⁻¹ head = xs.getLastD head :=
      prev_eq (hT'.ring _ _ (set_self ..))
    have hins := hT'.insertLast hT'.not_has (set_self ..)
    rw [set_set, ← hprev] at hins
    rw [rotatedLeft, if_neg hself, hring.apply_head, List.rotate_cons_succ, List.rotate_zero]
    exact hins

theorem cutPosition_holds {list : A} (hT : T.Holds r) (hlist : ¬T.Has list)
    (hhead : T head = some (as ++ bs)) (hne : as ++ bs ≠ []) :
    ((T.set list as).set head bs).Holds
      (KernelList.cutPosition r list head (as.getLastD head)) := by
  rw [KernelList.cutPosition,
    if_neg fun hself => hne ((hT.ring _ _ hhead).apply_head_eq_iff.mp hself)]
  by_cases hall : as.getLastD head = head
  · -- no entry is the head, so there is nothing in front of the cut
    obtain rfl : as = [] := by
      cases as using List.reverseRecOn with
      | nil => rfl
      | append_singleton as a =>
        rw [List.getLastD_concat] at hall
        exact absurd (by simp [hall]) (hT.apart _ _ _ _ hhead hhead)
    have hhead' : T.set list [] head = some bs :=
      (set_of_ne fun heq => hlist ⟨head, _, hhead, by simp [heq]⟩).trans hhead
    rw [if_pos hall, set_eq_self hhead']
    exact hT.enter hlist
  · rw [if_neg hall]
    exact hT.cut hlist hhead

theorem cutBefore_holds {list : A} (hT : T.Holds r) (hlist : ¬T.Has list)
    (hhead : T head = some (as ++ bs)) :
    ((T.set list as).set head bs).Holds (KernelList.cutBefore r list head (bs.headD head)) := by
  have hring := hT.ring _ _ hhead
  rw [KernelList.cutBefore]
  cases as with
  | nil =>
    have hhead' : T.set list [] head = some bs :=
      (set_of_ne fun heq => hlist ⟨head, _, hhead, by simp [heq]⟩).trans hhead
    have hfirst : r.next head = bs.headD head := next_eq hring
    rw [if_pos hfirst, set_eq_self hhead']
    exact hT.enter hlist
  | cons a as =>
    have hfirst : r.next head ≠ bs.headD head := by
      rw [hring.apply_head]
      have hnd := hring.nodup
      cases bs <;> simp at hnd ⊢ <;> tauto
    have hprev : r.next⁻¹ (bs.headD head) = (a :: as).getLastD head := by
      rw [Equiv.Perm.inv_eq_iff_eq, hring.apply_getLastD]
    rw [if_neg hfirst, hprev]
    exact hT.cut hlist hhead

theorem splicedAt_empty {list p : A} (hT : T.Holds r) (hlist : T list = some []) :
    splicedAt r list p = r := if_pos (ringAt_nil_iff.mp (hT.ring _ _ hlist))

theorem splicedAt_holds {list : A} {ys : List A} (hT : T.Holds r) (hlist : T list = some ys)
    (hhead : T head = some (as ++ bs)) (hne : list ≠ head) (hys : ys ≠ []) :
    ((T.drop list).set head (as ++ ys ++ bs)).Holds (splicedAt r list (as.getLastD head)) := by
  rw [splicedAt, if_neg fun hself => hys ((hT.ring _ _ hlist).apply_head_eq_iff.mp hself)]
  exact hT.splice hlist hhead hne

theorem splicedInitAt_holds {list : A} {ys : List A} (hT : T.Holds r) (hlist : T list = some ys)
    (hhead : T head = some (as ++ bs)) (hne : list ≠ head) :
    ((T.set list []).set head (as ++ ys ++ bs)).Holds
      (splicedInitAt r list (as.getLastD head)) := by
  rw [splicedInitAt]
  by_cases hself : r.next list = list
  · obtain rfl := (hT.ring _ _ hlist).apply_head_eq_iff.mp hself
    rw [if_pos hself, set_eq_self hlist, List.append_nil, set_eq_self hhead]
    exact hT
  · have hsplice := hT.splice hlist hhead hne
    have henter := hsplice.enter hsplice.not_has
    rw [set_comm _ hne.symm, set_after_drop] at henter
    rw [if_neg hself, ← Rings.leave_enter]
    exact henter

/-! ### The calls that are meant -/

def Op.Refines (S : Finset A) (r : Rings A) (op : Op A) (T' : Lists A) : Prop :=
  op.Legal S r ∧ T'.Holds (op.apply r)

omit [DecidableEq A] in
theorem Fresh.ne {a e : A} (ha : Fresh S T a) (hhead : T head = some xs) (he : e ∈ head :: xs) :
    a ≠ e := fun heq => ha.2 ⟨head, xs, hhead, heq ▸ he⟩

omit [DecidableEq A] in
theorem Fresh.alone {a : A} (ha : Fresh S T a) (hT : T.Holds r) : r.next a = a :=
  hT.alone _ ha.2

theorem replace_refines {old new : A} (hT : T.Holds r) (hnew : Fresh S T new)
    (hhead : T head = some (as ++ old :: bs)) :
    (Op.replace old new).Refines S r (T.set head (as ++ new :: bs)) ∧
      (Op.replaceInit old new).Refines S r (T.set head (as ++ new :: bs)) := by
  have hlegal : (Op.replace old new).Legal S r :=
    ⟨hT.entry_linked hhead (by simp), hnew.1, hnew.alone hT, hnew.ne hhead (by simp)⟩
  have hreplaced := hT.replace hnew.2 hhead
  refine ⟨⟨hlegal, hreplaced⟩, hlegal, ?_⟩
  rw [Op.apply, ← Rings.leave_enter]
  exact hreplaced.enter_again _

theorem replaceHead_refines {old new : A} (hT : T.Holds r) (hnew : Fresh S T new)
    (hold : T old = some xs) :
    (Op.replace old new).Refines S r ((T.drop old).set new xs) ∧
      (Op.replaceInit old new).Refines S r ((T.set old []).set new xs) := by
  have hne := hnew.ne hold List.mem_cons_self
  have hlegal : (Op.replace old new).Legal S r :=
    ⟨hT.linked _ _ hold, hnew.1, hnew.alone hT, hne⟩
  have hreplaced := hT.replaceHead hnew.2 hold
  refine ⟨⟨hlegal, hreplaced⟩, hlegal, ?_⟩
  have henter := hreplaced.enter hreplaced.not_has
  rw [set_comm _ hne, set_after_drop] at henter
  rw [Op.apply, ← Rings.leave_enter]
  exact henter

theorem swap_refines {entry1 entry2 head1 head2 : A} {ys : List A} (hT : T.Holds r)
    (hne : entry1 ≠ entry2) (hhead1 : T head1 = some xs) (hentry1 : entry1 ∈ xs)
    (hhead2 : T head2 = some ys) (hentry2 : entry2 ∈ ys) :
    (Op.swap entry1 entry2).Refines S r
      fun head => (T head).map (List.map (Equiv.swap entry1 entry2)) := by
  have hmem1 := List.mem_cons_of_mem head1 hentry1
  have hmem2 := List.mem_cons_of_mem head2 hentry2
  have hlinked1 := hT.entry_linked hhead1 hmem1
  have hlinked2 := hT.entry_linked hhead2 hmem2
  have hself : r.next entry2 ≠ entry2 := fun hself => by
    have hnil := (hT.ring _ _ hhead2).eq_nil hmem2 hself
    simp [hnil.2] at hentry2
  refine ⟨⟨hlinked1, hlinked2, hne⟩, ?_⟩
  exact hT.swap (swapped_next r hne hself) (swapped_linked r hlinked1 hlinked2).ge
    ⟨_, _, hhead1, hmem1⟩ ⟨_, _, hhead2, hmem2⟩ (hT.entry_eq_none hhead1 hentry1)
    (hT.entry_eq_none hhead2 hentry2)

theorem move_refines {list home : A} (hT : T.Holds r) (hhome : T home = some (as ++ list :: bs))
    (hhead : T.set home (as ++ bs) head = some xs) :
    (Op.move list head).Refines S r ((T.set home (as ++ bs)).set head (list :: xs)) ∧
      (Op.moveTail list head).Refines S r ((T.set home (as ++ bs)).set head (xs ++ [list])) := by
  have hleft := hT.leave hhome
  have hlinked := Finset.mem_erase.mp (hleft.linked _ _ hhead)
  have hlegal : (Op.move list head).Legal S r :=
    ⟨hT.entry_linked hhome (by simp), hlinked.2, hlinked.1⟩
  have hlast := hleft.insertLast hleft.not_has hhead
  rw [← prev_eq (hleft.ring _ _ hhead)] at hlast
  exact ⟨⟨hlegal, hleft.insertFirst hleft.not_has hhead⟩, hlegal, hlast⟩

theorem bulkMoveTail_refines {first last : A} {cs : List A} (hT : T.Holds r)
    (hhead : T head = some (as ++ (bs ++ cs))) (hfirst : bs.head? = some first)
    (hlast : bs.getLast? = some last) :
    (Op.bulkMoveTail head first last).Refines S r (T.set head (as ++ cs ++ bs)) := by
  have hfirstmem := List.mem_of_head? hfirst
  have hlastmem := List.mem_of_getLast? hlast
  have hne : head ≠ first := fun heq =>
    hT.apart _ _ _ _ hhead hhead (by simp [heq, hfirstmem])
  exact ⟨⟨hT.linked _ _ hhead, hT.entry_linked hhead (by simp [hfirstmem]),
    hT.entry_linked hhead (by simp [hlastmem]), hne⟩, bulkMoved_holds hT hhead hfirst hlast⟩

theorem rotateToFront_refines {list : A} (hT : T.Holds r)
    (hhead : T head = some (as ++ list :: bs)) :
    (Op.rotateToFront list head).Refines S r (T.set head (list :: (bs ++ as))) := by
  have hne : list ≠ head := by
    rintro rfl
    exact hT.apart _ _ _ _ hhead hhead (by simp)
  have hprev : (r.leave head).next⁻¹ list = (bs ++ as).getLastD list :=
    prev_eq (r := r.leave head) (hT.ring _ _ hhead).rotate.isolate
  refine ⟨⟨hT.entry_linked hhead (by simp), hT.linked _ _ hhead, hne⟩, ?_⟩
  rw [Op.apply, hprev]
  exact hT.toFront hhead

theorem cutPositionEmpty_refines {list : A} (hT : T.Holds r) (hlist : Fresh S T list)
    (hhead : T head = some []) : (Op.cutPosition list head head).Refines S r T := by
  have hring := hT.ring _ _ hhead
  refine ⟨⟨hlist.1, hlist.alone hT, hT.linked _ _ hhead, _, hring, List.mem_cons_self⟩, ?_⟩
  rw [Op.apply, KernelList.cutPosition, if_pos (ringAt_nil_iff.mp hring)]
  exact hT

theorem cutBefore_refines {list : A} (hT : T.Holds r) (hlist : Fresh S T list)
    (hhead : T head = some (as ++ bs)) :
    (Op.cutBefore list head (bs.headD head)).Refines S r ((T.set list as).set head bs) := by
  have hentry : bs.headD head ∈ head :: (as ++ bs) := by cases bs <;> simp
  exact ⟨⟨hlist.1, hlist.alone hT, hT.linked _ _ hhead, hT.entry_linked hhead hentry,
    (hlist.ne hhead List.mem_cons_self).symm, (hlist.ne hhead hentry).symm⟩,
    cutBefore_holds hT hlist.2 hhead⟩

section Splice
variable {list : A} {ys : List A}

omit [DecidableEq A] in
theorem splice_legal (hT : T.Holds r) (hne : list ≠ head) (hlist : T list = some ys)
    (hhead : T head = some xs) :
    (Op.splice list head).Legal S r ∧ (Op.spliceTail list head).Legal S r := by
  have hlinked := hT.linked _ _ hlist
  have hlinked' := hT.linked _ _ hhead
  exact ⟨⟨hlinked, hlinked', hne.symm, next_ne hT hhead hlist hne⟩,
    hlinked, hlinked', hne.symm, next_ne hT hlist hhead hne.symm⟩

theorem splice_refines (hT : T.Holds r) (hne : list ≠ head) (hlist : T list = some ys)
    (hhead : T head = some xs) (hys : ys ≠ []) :
    (Op.splice list head).Refines S r ((T.drop list).set head (ys ++ xs)) ∧
      (Op.spliceTail list head).Refines S r ((T.drop list).set head (xs ++ ys)) := by
  have hlegal := splice_legal (S := S) hT hne hlist hhead
  have hstart : T head = some ([] ++ xs) := hhead
  have hend : T head = some (xs ++ []) := by rw [hhead, List.append_nil]
  have hlast := splicedAt_holds hT hlist hend hne hys
  rw [List.append_nil, ← prev_eq (hT.ring _ _ hhead)] at hlast
  exact ⟨⟨hlegal.1, splicedAt_holds hT hlist hstart hne hys⟩, hlegal.2, hlast⟩

theorem spliceEmpty_refines (hT : T.Holds r) (hne : list ≠ head) (hlist : T list = some [])
    (hhead : T head = some xs) :
    (Op.splice list head).Refines S r T ∧ (Op.spliceTail list head).Refines S r T := by
  have hlegal := splice_legal (S := S) hT hne hlist hhead
  have hsame : ∀ p, T.Holds (splicedAt r list p) := fun p => by
    rw [splicedAt_empty hT hlist]
    exact hT
  exact ⟨⟨hlegal.1, hsame _⟩, hlegal.2, hsame _⟩

theorem spliceInit_refines (hT : T.Holds r) (hne : list ≠ head) (hlist : T list = some ys)
    (hhead : T head = some xs) :
    (Op.spliceInit list head).Refines S r ((T.set list []).set head (ys ++ xs)) ∧
      (Op.spliceTailInit list head).Refines S r ((T.set list []).set head (xs ++ ys)) := by
  have hlegal := splice_legal (S := S) hT hne hlist hhead
  have hstart : T head = some ([] ++ xs) := hhead
  have hend : T head = some (xs ++ []) := by rw [hhead, List.append_nil]
  have hlast := splicedInitAt_holds hT hlist hend hne
  rw [List.append_nil, ← prev_eq (hT.ring _ _ hhead)] at hlast
  exact ⟨⟨hlegal.1, splicedInitAt_holds hT hlist hstart hne⟩, hlegal.2, hlast⟩

end Splice

/-- A call that is meant is legal, and makes of the rings what it is meant to make of the lists. -/
theorem Step.refines (hstep : Step S T op T') (hT : T.Holds r) (hS : r.linked ⊆ S) :
    op.Legal S r ∧ T'.Holds (op.apply r) := by
  cases hstep with
  | init hlist => exact ⟨⟨hlist.1, hlist.alone hT⟩, hT.enter hlist.2⟩
  | initEmpty hlist =>
    exact ⟨⟨hS (hT.linked _ _ hlist), ringAt_nil_iff.mp (hT.ring _ _ hlist)⟩, hT.enter_again _⟩
  | add hnew hhead =>
    exact ⟨⟨hnew.1, hnew.alone hT, hT.linked _ _ hhead⟩, hT.insertFirst hnew.2 hhead⟩
  | addTail hnew hhead =>
    have hins := hT.insertLast hnew.2 hhead
    rw [← prev_eq (hT.ring _ _ hhead)] at hins
    exact ⟨⟨hnew.1, hnew.alone hT, hT.linked _ _ hhead⟩, hins⟩
  | delClearprev hhead => exact ⟨hT.entry_linked hhead (by simp), hT.leave hhead⟩
  | del hhead => exact ⟨hT.entry_linked hhead (by simp), hT.leave hhead⟩
  | delInit hhead =>
    refine ⟨hT.entry_linked hhead (by simp), ?_⟩
    rw [Op.apply, ← Rings.leave_enter]
    exact (hT.leave hhead).enter_again _
  | replace hnew hhead => exact (replace_refines hT hnew hhead).1
  | replaceHead hnew hold => exact (replaceHead_refines hT hnew hold).1
  | replaceInit hnew hhead => exact (replace_refines hT hnew hhead).2
  | replaceInitHead hnew hold => exact (replaceHead_refines hT hnew hold).2
  | swap hne hhead1 hentry1 hhead2 hentry2 =>
    exact swap_refines hT hne hhead1 hentry1 hhead2 hentry2
  | move hhome hhead => exact (move_refines hT hhome hhead).1
  | moveTail hhome hhead => exact (move_refines hT hhome hhead).2
  | bulkMoveTail hhead hfirst hlast => exact bulkMoveTail_refines hT hhead hfirst hlast
  | rotateLeft hhead => exact ⟨hT.linked _ _ hhead, rotatedLeft_holds hT hhead⟩
  | rotateToFront hhead => exact rotateToFront_refines hT hhead
  | cutPosition hlist hhead hne =>
    have hring := hT.ring _ _ hhead
    exact ⟨⟨hlist.1, hlist.alone hT, hT.linked _ _ hhead, _, hring, getLastD_mem ..⟩,
      cutPosition_holds hT hlist.2 hhead hne⟩
  | cutPositionEmpty hlist hhead => exact cutPositionEmpty_refines hT hlist hhead
  | cutBefore hlist hhead => exact cutBefore_refines hT hlist hhead
  | splice hne hlist hhead hys => exact (splice_refines hT hne hlist hhead hys).1
  | spliceEmpty hne hlist hhead => exact (spliceEmpty_refines hT hne hlist hhead).1
  | spliceTail hne hlist hhead hys => exact (splice_refines hT hne hlist hhead hys).2
  | spliceTailEmpty hne hlist hhead => exact (spliceEmpty_refines hT hne hlist hhead).2
  | spliceInit hne hlist hhead => exact (spliceInit_refines hT hne hlist hhead).1
  | spliceTailInit hne hlist hhead => exact (spliceInit_refines hT hne hlist hhead).2

/-! ### Runs -/

/-- On the cells `S` of the heap there are the lists `T`. -/
def Heap.Represents (S : Finset A) (h : Heap A) (T : Lists A) : Prop :=
  ∃ r, h.Wired S r ∧ T.Holds r

omit [DecidableEq A] in
theorem represents_none {h : Heap A} (hS : ∀ a ∈ S, h.mapped a) :
    h.Represents S Lists.nil :=
  ⟨Rings.unlinked, wired_unlinked hS, .unlinked⟩

omit [DecidableEq A] in
theorem Heap.Represents.isList {h : Heap A} (hrep : h.Represents S T) (hhead : T head = some xs) :
    h.IsList head xs := by
  obtain ⟨r, hw, hT⟩ := hrep
  exact hw.isList (hT.linked _ _ hhead) (hT.ring _ _ hhead)

inductive Steps (S : Finset A) : Lists A → List (Op A) → Lists A → Prop where
  | nil (T : Lists A) : Steps S T [] T
  | cons {T T' T'' : Lists A} {op : Op A} {ops : List (Op A)} (hstep : Step S T op T')
      (hsteps : Steps S T' ops T'') : Steps S T (op :: ops) T''

theorem Step.represents {c : Constants A} {h : Heap A} (hstep : Step S T op T')
    (hrep : h.Represents S T) :
    ∃ h', op.run c h = .ok h' ∧ h.Within S h' ∧ h'.Represents S T' := by
  obtain ⟨r, hw, hT⟩ := hrep
  obtain ⟨hlegal, hT'⟩ := hstep.refines hT hw.within
  obtain ⟨h', hrun, hin, hw'⟩ := Op.run_leads (c := c) hw hlegal
  exact ⟨h', hrun, hin, _, hw', hT'⟩

/-- Calls that are meant do to the pointers what they are meant to do to the lists, however many of
them there are, and in whatever order. -/
theorem run_represents {c : Constants A} {h : Heap A} {ops : List (Op A)}
    (hsteps : Steps S T ops T') (hrep : h.Represents S T) :
    ∃ h', run c h ops = .ok h' ∧ h.Within S h' ∧ h'.Represents S T' ∧
      ∀ head xs, T' head = some xs → h'.IsList head xs := by
  induction hsteps generalizing h with
  | nil T => exact ⟨h, rfl, .refl S h, hrep, fun _ _ hhead => hrep.isList hhead⟩
  | cons hstep _ ih =>
    obtain ⟨h₁, hrun, hin, hrep₁⟩ := hstep.represents (c := c) hrep
    obtain ⟨h', hruns, hins, hrest⟩ := ih hrep₁
    refine ⟨h', ?_, hin.trans hins, hrest⟩
    rw [run, List.foldlM_cons, hrun, ok_bind]
    exact hruns

theorem run_represents_add_del : ∃ h', run ⟨90, 91, 92⟩ ⟨fun _ => true, id, id⟩
      [.init 0, .add 1 0, .del 1] = .ok h' ∧ Heap.Within {0, 1} ⟨fun _ => true, id, id⟩ h' ∧
    h'.Represents {0, 1} (((Lists.nil.set 0 []).set 0 [1]).set 0 ([] ++ [] : List ℕ)) ∧
    ∀ head xs, ((Lists.nil.set 0 []).set 0 [1]).set 0 ([] ++ [] : List ℕ) head = some xs →
      h'.IsList head xs :=
  run_represents (.cons (.init ⟨by decide, by simp [Lists.Has, Lists.nil]⟩)
    (.cons (.add ⟨by decide, by simp [Lists.has_nil_set]⟩
      (set_self ..)) (.cons (.del (set_self ..)) (.nil _)))) (represents_none fun _ _ => rfl)

/-! ### Tests -/

/-- The tests tell what the list is. -/
theorem tests_agree {h : Heap A} (hrep : h.Represents S T) (hhead : T head = some xs) :
    listEmpty h head = .ok (xs = []) ∧ listEmptyCareful h head = .ok (xs = []) ∧
      listIsSingular h head = .ok (xs.length = 1) ∧
      ∀ e ∈ xs, listIsFirst h e head = .ok (xs.head? = some e) ∧
        listIsLast h e head = .ok (xs.getLast? = some e) := by
  obtain ⟨r, hw, hT⟩ := hrep
  have hring := hT.ring _ _ hhead
  have hlinked := hT.linked _ _ hhead
  have hempty := hring.apply_head_eq_iff
  refine ⟨?_, ?_, ?_, fun e he => ⟨?_, ?_⟩⟩
  · rw [listEmpty_ok hw hlinked]
    exact congrArg Except.ok (decide_eq_decide.mpr hempty)
  · rw [listEmptyCareful_ok hw hlinked]
    exact congrArg Except.ok (decide_eq_decide.mpr hempty)
  · rw [listIsSingular_ok hw hlinked]
    refine congrArg Except.ok (decide_eq_decide.mpr ?_)
    rw [Ne, hempty, next_eq hring, prev_eq hring]
    rcases xs with _ | ⟨x, _ | ⟨y, ys⟩⟩
    · simp
    · simp
    · have hne : x ≠ (y :: ys).getLast (List.cons_ne_nil y ys) := fun heq =>
        (List.nodup_cons.mp (List.nodup_cons.mp hring.nodup).2).1 (heq ▸ List.getLast_mem _)
      have hlast : (x :: y :: ys).getLastD head = (y :: ys).getLast (List.cons_ne_nil y ys) := by
        rw [List.getLastD_eq_getLast?, List.getLast?_eq_getLast_of_ne_nil (List.cons_ne_nil x _)]
        rfl
      rw [hlast]
      simp [hne]
  · have hlink := hT.entry_linked hhead (List.mem_cons_of_mem _ he)
    rw [listIsFirst, hw.getPrev hlink]
    refine congrArg Except.ok (decide_eq_decide.mpr ?_)
    rw [Equiv.Perm.inv_eq_iff_eq, next_eq hring]
    cases xs with
    | nil => simp at he
    | cons x xs => simp [eq_comm]
  · have hlink := hT.entry_linked hhead (List.mem_cons_of_mem _ he)
    rw [listIsLast, hw.getNext hlink]
    refine congrArg Except.ok (decide_eq_decide.mpr ?_)
    have hlast := prev_eq hring
    rw [← Equiv.Perm.eq_inv_iff_eq, hlast]
    cases xs using List.reverseRecOn with
    | nil => simp at he
    | append_singleton xs x => simp [eq_comm]

theorem tests_agree_one : listEmpty (⟨fun _ => true, (1 - ·), (1 - ·)⟩ : Heap ℕ) 0 = .ok false ∧
    listEmptyCareful (⟨fun _ => true, (1 - ·), (1 - ·)⟩ : Heap ℕ) 0 = .ok false ∧
    listIsSingular (⟨fun _ => true, (1 - ·), (1 - ·)⟩ : Heap ℕ) 0 = .ok true ∧
    ∀ e ∈ [1], listIsFirst ⟨fun _ => true, (1 - ·), (1 - ·)⟩ e 0 = .ok ([1].head? = some e) ∧
      listIsLast ⟨fun _ => true, (1 - ·), (1 - ·)⟩ e 0 = .ok ([1].getLast? = some e) :=
  tests_agree (S := {0, 1}) (T := (Lists.nil.set 0 []).set 0 [1])
    ⟨(Rings.unlinked.enter 0).exchange 0 1,
      ⟨fun _ _ => rfl, by decide, ⟨by decide, by decide⟩⟩,
      (Lists.Holds.unlinked.enter (by simp [Lists.Has, Lists.nil])).insertFirst
        (by simp [Lists.has_nil_set]) (set_self ..)⟩ (set_self ..)

end GoodCommand.KernelList
