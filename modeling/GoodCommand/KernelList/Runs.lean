import GoodCommand.KernelList.Lists

/-! Runs of the functions of `linux/list.h`, in any order. -/

namespace GoodCommand.KernelList

variable {A : Type} [DecidableEq A]

inductive Op (A : Type) where
  | init (list : A)
  | add (new head : A)
  | addTail (new head : A)
  | delClearprev (entry : A)
  | del (entry : A)
  | replace (old new : A)
  | replaceInit (old new : A)
  | swap (entry1 entry2 : A)
  | delInit (entry : A)
  | move (list head : A)
  | moveTail (list head : A)
  | bulkMoveTail (head first last : A)
  | rotateLeft (head : A)
  | rotateToFront (list head : A)
  | cutPosition (list head entry : A)
  | cutBefore (list head entry : A)
  | splice (list head : A)
  | spliceTail (list head : A)
  | spliceInit (list head : A)
  | spliceTailInit (list head : A)

namespace Op

def run (c : Constants A) (h : Heap A) : Op A → Except (WildPointer A) (Heap A)
  | init list => initListHead h list
  | add new head => listAdd h new head
  | addTail new head => listAddTail h new head
  | delClearprev entry => listDelClearprev c h entry
  | del entry => listDel c h entry
  | replace old new => listReplace h old new
  | replaceInit old new => listReplaceInit h old new
  | swap entry1 entry2 => listSwap c h entry1 entry2
  | delInit entry => listDelInit h entry
  | move list head => listMove h list head
  | moveTail list head => listMoveTail h list head
  | bulkMoveTail head first last => listBulkMoveTail h head first last
  | rotateLeft head => listRotateLeft h head
  | rotateToFront list head => listRotateToFront h list head
  | cutPosition list head entry => listCutPosition h list head entry
  | cutBefore list head entry => listCutBefore h list head entry
  | splice list head => listSplice h list head
  | spliceTail list head => listSpliceTail h list head
  | spliceInit list head => listSpliceInit h list head
  | spliceTailInit list head => listSpliceTailInit h list head

def apply (r : Rings A) : Op A → Rings A
  | init list => r.enter list
  | add new head => r.exchange head new
  | addTail new head => r.exchange (r.next⁻¹ head) new
  | delClearprev entry => r.leave entry
  | del entry => r.leave entry
  | replace old new => (r.exchange old new).leave old
  | replaceInit old new => (r.exchange old new).isolate old
  | swap entry1 entry2 => swapped r entry1 entry2
  | delInit entry => r.isolate entry
  | move list head => (r.leave list).exchange head list
  | moveTail list head => (r.leave list).exchange ((r.leave list).next⁻¹ head) list
  | bulkMoveTail head first last => bulkMoved r head first last
  | rotateLeft head => rotatedLeft r head
  | rotateToFront list head => (r.leave head).exchange ((r.leave head).next⁻¹ list) head
  | cutPosition list head entry => KernelList.cutPosition r list head entry
  | cutBefore list head entry => KernelList.cutBefore r list head entry
  | splice list head => splicedAt r list head
  | spliceTail list head => splicedAt r list (r.next⁻¹ head)
  | spliceInit list head => splicedInitAt r list head
  | spliceTailInit list head => splicedInitAt r list (r.next⁻¹ head)

/-- What a call needs of the rings on the cells `S`. A cell that is added is on no other ring. -/
def Legal (S : Finset A) (r : Rings A) : Op A → Prop
  | init list => list ∈ S ∧ r.next list = list
  | add new head => new ∈ S ∧ r.next new = new ∧ head ∈ r.linked
  | addTail new head => new ∈ S ∧ r.next new = new ∧ head ∈ r.linked
  | delClearprev entry => entry ∈ r.linked
  | del entry => entry ∈ r.linked
  | replace old new => old ∈ r.linked ∧ new ∈ S ∧ r.next new = new ∧ new ≠ old
  | replaceInit old new => old ∈ r.linked ∧ new ∈ S ∧ r.next new = new ∧ new ≠ old
  | swap entry1 entry2 => entry1 ∈ r.linked ∧ entry2 ∈ r.linked ∧ entry1 ≠ entry2
  | delInit entry => entry ∈ r.linked
  | move list head => list ∈ r.linked ∧ head ∈ r.linked ∧ head ≠ list
  | moveTail list head => list ∈ r.linked ∧ head ∈ r.linked ∧ head ≠ list
  | bulkMoveTail head first last =>
      head ∈ r.linked ∧ first ∈ r.linked ∧ last ∈ r.linked ∧ head ≠ first
  | rotateLeft head => head ∈ r.linked
  | rotateToFront list head => list ∈ r.linked ∧ head ∈ r.linked ∧ list ≠ head
  | cutPosition list head entry => list ∈ S ∧ r.next list = list ∧ head ∈ r.linked ∧
      ∃ xs, RingAt r.next head xs ∧ entry ∈ head :: xs
  | cutBefore list head entry => list ∈ S ∧ r.next list = list ∧ head ∈ r.linked ∧
      entry ∈ r.linked ∧ head ≠ list ∧ entry ≠ list
  | splice list head => list ∈ r.linked ∧ head ∈ r.linked ∧ head ≠ list ∧ r.next head ≠ list
  | spliceTail list head => list ∈ r.linked ∧ head ∈ r.linked ∧ head ≠ list ∧ r.next list ≠ head
  | spliceInit list head => list ∈ r.linked ∧ head ∈ r.linked ∧ head ≠ list ∧ r.next head ≠ list
  | spliceTailInit list head =>
      list ∈ r.linked ∧ head ∈ r.linked ∧ head ≠ list ∧ r.next list ≠ head

theorem run_leads {c : Constants A} {S : Finset A} {h : Heap A} {r : Rings A} {op : Op A}
    (hw : h.Wired S r) (hlegal : op.Legal S r) : Leads S h (op.run c h) (op.apply r) := by
  cases op with
  | init => exact initListHead_leads hw hlegal.1 hlegal.2
  | add => exact listAdd_leads hw hlegal.2.2 hlegal.1 hlegal.2.1
  | addTail => exact listAddTail_leads hw hlegal.2.2 hlegal.1 hlegal.2.1
  | delClearprev => exact listDelClearprev_leads hw hlegal
  | del => exact listDel_leads hw hlegal
  | replace => exact listReplace_leads hw hlegal.1 hlegal.2.1 hlegal.2.2.1 hlegal.2.2.2
  | replaceInit => exact listReplaceInit_leads hw hlegal.1 hlegal.2.1 hlegal.2.2.1 hlegal.2.2.2
  | swap => exact listSwap_leads hw hlegal.1 hlegal.2.1 hlegal.2.2
  | delInit => exact listDelInit_leads hw hlegal
  | move => exact listMove_leads hw hlegal.1 hlegal.2.1 hlegal.2.2
  | moveTail => exact listMoveTail_leads hw hlegal.1 hlegal.2.1 hlegal.2.2
  | bulkMoveTail =>
    exact listBulkMoveTail_leads hw hlegal.1 hlegal.2.1 hlegal.2.2.1 hlegal.2.2.2
  | rotateLeft => exact listRotateLeft_leads hw hlegal
  | rotateToFront => exact listRotateToFront_leads hw hlegal.1 hlegal.2.1 hlegal.2.2
  | cutPosition =>
    obtain ⟨hlist, halone, hhead, xs, hring, hentry⟩ := hlegal
    exact listCutPosition_leads hw hlist halone hhead hring hentry
  | cutBefore =>
    obtain ⟨hlist, halone, hhead, hentry, hhl, hel⟩ := hlegal
    exact listCutBefore_leads hw hlist halone hhead hentry hhl hel
  | splice => exact listSplice_leads hw hlegal.1 hlegal.2.1 hlegal.2.2.1 hlegal.2.2.2
  | spliceTail => exact listSpliceTail_leads hw hlegal.1 hlegal.2.1 hlegal.2.2.1 hlegal.2.2.2
  | spliceInit => exact listSpliceInit_leads hw hlegal.1 hlegal.2.1 hlegal.2.2.1 hlegal.2.2.2
  | spliceTailInit =>
    exact listSpliceTailInit_leads hw hlegal.1 hlegal.2.1 hlegal.2.2.1 hlegal.2.2.2

end Op

def LegalRun (S : Finset A) : Rings A → List (Op A) → Prop
  | _, [] => True
  | r, op :: ops => op.Legal S r ∧ LegalRun S (op.apply r) ops

def run (c : Constants A) (h : Heap A) (ops : List (Op A)) : Except (WildPointer A) (Heap A) :=
  ops.foldlM (Op.run c) h

theorem run_leads {c : Constants A} {S : Finset A} {h : Heap A} {r : Rings A} {ops : List (Op A)}
    (hw : h.Wired S r) (hlegal : LegalRun S r ops) :
    Leads S h (run c h ops) (ops.foldl Op.apply r) := by
  induction ops generalizing h r with
  | nil => exact .refl hw
  | cons op ops ih =>
    rw [run, List.foldlM_cons]
    exact (Op.run_leads hw hlegal.1).bind fun h' hw' => ih hw' hlegal.2

/-- Whatever the calls of a run, and their order: none of them faults, no cell outside `S` changes,
and every linked cell is on a ring that is closed in both directions. -/
theorem run_keeps_rings {c : Constants A} {S : Finset A} {h : Heap A} {r : Rings A}
    {ops : List (Op A)} (hw : h.Wired S r) (hlegal : LegalRun S r ops) :
    ∃ h', run c h ops = .ok h' ∧ h.Within S h' ∧ h'.Wired S (ops.foldl Op.apply r) ∧
      ∀ a ∈ (ops.foldl Op.apply r).linked, ∃ xs, h'.IsList a xs := by
  obtain ⟨h', hrun, hin, hw'⟩ := run_leads hw hlegal
  refine ⟨h', hrun, hin, hw', fun a ha => ?_⟩
  obtain ⟨xs, hring⟩ := (ops.foldl Op.apply r).exists_ringAt a
  exact ⟨xs, hw'.isList ha hring⟩

theorem run_keeps_rings_add_del : ∃ h', run ⟨90, 91, 92⟩ ⟨fun _ => true, id, id⟩
      [.init 0, .add 1 0, .del 1] = .ok h' ∧ Heap.Within {0, 1} ⟨fun _ => true, id, id⟩ h' ∧
    h'.Wired {0, 1} (List.foldl Op.apply Rings.unlinked [.init 0, .add 1 0, .del 1]) ∧
    ∀ a ∈ (List.foldl Op.apply (Rings.unlinked : Rings ℕ) [.init 0, .add 1 0, .del 1]).linked,
      ∃ xs, h'.IsList a xs :=
  run_keeps_rings (wired_unlinked fun _ _ => rfl) (by simp only [LegalRun, Op.Legal]; decide)

end GoodCommand.KernelList
