import GoodCommand.Library.Chain
import GoodCommand.Library.CInt
import GoodCommand.Library.Fuel

/-! The functions of `25-reverse-nodes-in-k-group.c`. A heap gives the `struct ListNode` at an
address of `A`; a pointer is an address or `NULL`, which is `none`. `int` arithmetic is modulo 2^32,
as on the machines that the program is built for. -/

namespace GoodCommand.ListNode
open Fuel

inductive Fault where
  | nullPointer
  | wildPointer
  | divide
  deriving DecidableEq

structure Node (A : Type) where
  val : CInt
  next : Option A
  deriving DecidableEq

abbrev Heap (A : Type) := A → Option (Node A)

variable {A : Type} [DecidableEq A]

/-- `*p`. -/
def node (h : Heap A) (p : Option A) : Except Fault (Node A) :=
  match p with
  | none => .error .nullPointer
  | some a =>
    match h a with
    | none => .error .wildPointer
    | some n => .ok n

/-- `p->next = q`. -/
def setNext (h : Heap A) (p q : Option A) : Except Fault (Heap A) :=
  match p with
  | none => .error .nullPointer
  | some a =>
    match h a with
    | none => .error .wildPointer
    | some n => .ok (Function.update h a (some { n with next := q }))

def insert (h : Heap A) (pre middle : Option A) : Except Fault (Heap A) := do
  let h ← setNext h middle (← node h pre).next
  setNext h pre middle

def removenode (h : Heap A) (pre middle : Option A) : Except Fault (Heap A) := do
  if (← node h pre).next = middle then
    let h ← setNext h pre (← node h middle).next
    setNext h middle none
  else return h

/-- `while(p)` of `get_size`, on its locals `s` and `p`. -/
def sizeBody (h : Heap A) (st : CInt × Option A) : Prog Fault (Ctl (CInt × Option A) CInt) := do
  if st.2 ≠ none then
    let n ← node h st.2
    return .next (CInt.wrap (st.1.val + 1), n.next)
  else return .exit st.1

def getSize (h : Heap A) (head : Option A) : Prog Fault CInt := loop (sizeBody h) (CInt.zero, head)

/-- `while(p != tail)` of `do_revert`, on its local `p` and the heap. -/
def revertBody (head tail pre : Option A) (st : Option A × Heap A) :
    Prog Fault (Ctl (Option A × Heap A) (Heap A)) := do
  if st.1 ≠ tail then
    let n ← node st.2 st.1
    let h ← removenode st.2 pre st.1
    let h ← insert h head st.1
    return .next (n.next, h)
  else return .exit st.2

def doRevert (h : Heap A) (head tail : Option A) : Prog Fault (Heap A) := do
  let n ← node h head
  let p ← node h n.next
  loop (revertBody head tail n.next) (p.next, h)

/-- `get_node_by_index(p, index)`; a negative index takes no step, and is 0 here. -/
def getNodeByIndex (h : Heap A) : Option A → ℕ → Except Fault (Option A)
  | p, 0 => .ok p
  | p, index + 1 => do
    let n ← node h p
    getNodeByIndex h n.next index

/-- `s/k`; the machine stops on a quotient that it does not have. -/
def quotient (s k : CInt) : Except Fault CInt :=
  if k.val = 0 ∨ s.val = intMin ∧ k.val = -1 then .error .divide
  else .ok (CInt.wrap (s.val.tdiv k.val))

/-- The `for` loop of `reverseKGroup`, on its local `i` and the heap. -/
def groupBody (prefixHead : Option A) (s k : CInt) (st : CInt × Heap A) :
    Prog Fault (Ctl (CInt × Heap A) (Heap A)) := do
  let count ← quotient s k
  if st.1 < count then
    let index := CInt.wrap (st.1.val * k.val)
    let p1 ← getNodeByIndex st.2 prefixHead index.val.toNat
    let index := CInt.wrap ((CInt.wrap (st.1.val + 1)).val * k.val)
    let p2 ← getNodeByIndex st.2 prefixHead index.val.toNat
    let n ← node st.2 p2
    let h ← doRevert st.2 p1 n.next
    return .next (CInt.wrap (st.1.val + 1), h)
  else return .exit st.2

/-- Fills in the node that `malloc` returned the address of. -/
def newNode (h : Heap A) (p : Option A) (val : CInt) (next : Option A) : Except Fault (Heap A) :=
  match p with
  | none => .error .nullPointer
  | some a => .ok (Function.update h a (some ⟨val, next⟩))

/-- `reverseKGroup(head, k)`, where `malloc` returns `prefixHead`: the list it returns, and the heap
it leaves. -/
def reverseKGroup (prefixHead : Option A) (h : Heap A) (head : Option A) (k : CInt) :
    Prog Fault (Option A × Heap A) := do
  let h ← newNode h prefixHead CInt.zero head
  let s ← getSize h head
  let h ← loop (groupBody prefixHead s k) (CInt.zero, h)
  let n ← node h prefixHead
  return (n.next, h)

end GoodCommand.ListNode
