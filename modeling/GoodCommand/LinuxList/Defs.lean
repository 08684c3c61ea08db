import GoodCommand.Library.Fuel

/-! The circular list of `linux_list.c`. A heap gives the `struct node` whose member `list` is at an
address of `A`, so that `container_of` and `list_entry` lead from a pointer to its node. -/

namespace GoodCommand.LinuxList
open Fuel

structure ListHead (A : Type) where
  next : A
  prev : A
  deriving DecidableEq

structure Node (A : Type) where
  value : ℤ
  list : ListHead A
  deriving DecidableEq

abbrev Heap (A : Type) := A → Option (Node A)

/-- There is no node at the address; `NULL` is such an address. -/
structure WildPointer where
  deriving DecidableEq

variable {A : Type} [DecidableEq A]

/-- `*p`. -/
def node (h : Heap A) (p : A) : Except WildPointer (Node A) :=
  match h p with
  | none => .error ⟨⟩
  | some n => .ok n

/-- `p->next = q`. -/
def setNext (h : Heap A) (p q : A) : Except WildPointer (Heap A) := do
  let n ← node h p
  return Function.update h p (some { n with list := { n.list with next := q } })

/-- `p->prev = q`. -/
def setPrev (h : Heap A) (p q : A) : Except WildPointer (Heap A) := do
  let n ← node h p
  return Function.update h p (some { n with list := { n.list with prev := q } })

/-- `INIT_LIST_HEAD(list)` -/
def initListHead (h : Heap A) (list : A) : Except WildPointer (Heap A) := do
  let h ← setNext h list list
  setPrev h list list

/-- `__list_add(new, prev, next)` -/
def listAddBetween (h : Heap A) (new prev next : A) : Except WildPointer (Heap A) := do
  let h ← setPrev h next new
  let h ← setNext h new next
  let h ← setPrev h new prev
  setNext h prev new

/-- `list_add(new, head)` -/
def listAdd (h : Heap A) (new head : A) : Except WildPointer (Heap A) := do
  let n ← node h head
  listAddBetween h new head n.list.next

/-- `while(ptr != head)`, on the local `ptr` and the nodes that have been printed. `link` is the
member that leads on. -/
def walkBody (link : ListHead A → A) (h : Heap A) (head : A) (st : A × List (A × ℤ)) :
    Prog WildPointer (Ctl (A × List (A × ℤ)) (List (A × ℤ))) := do
  if st.1 ≠ head then
    let anode ← node h st.1
    return .next (link anode.list, st.2 ++ [(st.1, anode.value)])
  else return .exit st.2

def walk (link : ListHead A → A) (h : Heap A) (head : A) : Prog WildPointer (List (A × ℤ)) := do
  let n ← node h head
  loop (walkBody link h head) (link n.list, [])

/-- `walk_list(head)`: the addresses and values that it prints. -/
def walkList (h : Heap A) (head : A) : Prog WildPointer (List (A × ℤ)) := walk ListHead.next h head

/-- `walk_list_list_entry(head)` -/
def walkListListEntry (h : Heap A) (head : A) : Prog WildPointer (List (A × ℤ)) :=
  walk ListHead.next h head

/-- `walk_list_for_each(head)` -/
def walkListForEach (h : Heap A) (head : A) : Prog WildPointer (List (A × ℤ)) :=
  walk ListHead.next h head

end GoodCommand.LinuxList
