import GoodCommand.Library.Fuel

/-! The circular lists of `linux/list.h`, without `CONFIG_DEBUG_LIST`. A pointer is an address of
`A`; `NULL` and the poison are addresses at which there is no `struct list_head`. -/

namespace GoodCommand.KernelList
open Fuel

/-- The addresses at which there is a `struct list_head`, and its members. -/
structure Heap (A : Type) where
  mapped : A → Bool
  next : A → A
  prev : A → A

/-- The address that was followed is not mapped. -/
structure WildPointer (A : Type) where
  address : A
  deriving DecidableEq

/-- `NULL`, `LIST_POISON1` and `LIST_POISON2`. -/
structure Constants (A : Type) where
  null : A
  poison1 : A
  poison2 : A

variable {A : Type} [DecidableEq A]

/-- `p->next`. -/
def getNext (h : Heap A) (p : A) : Except (WildPointer A) A :=
  if h.mapped p then .ok (h.next p) else .error ⟨p⟩

/-- `p->prev`. -/
def getPrev (h : Heap A) (p : A) : Except (WildPointer A) A :=
  if h.mapped p then .ok (h.prev p) else .error ⟨p⟩

def Heap.withNext (h : Heap A) (p q : A) : Heap A := { h with next := Function.update h.next p q }

def Heap.withPrev (h : Heap A) (p q : A) : Heap A := { h with prev := Function.update h.prev p q }

/-- `p->next = q`. -/
def setNext (h : Heap A) (p q : A) : Except (WildPointer A) (Heap A) :=
  if h.mapped p then .ok (h.withNext p q) else .error ⟨p⟩

/-- `p->prev = q`. -/
def setPrev (h : Heap A) (p q : A) : Except (WildPointer A) (Heap A) :=
  if h.mapped p then .ok (h.withPrev p q) else .error ⟨p⟩

/-! ### Single entries -/

/-- `INIT_LIST_HEAD(list)` -/
def initListHead (h : Heap A) (list : A) : Except (WildPointer A) (Heap A) := do
  let h ← setNext h list list
  setPrev h list list

/-- `__list_add(new, prev, next)` -/
def listAddBetween (h : Heap A) (new prev next : A) : Except (WildPointer A) (Heap A) := do
  let h ← setPrev h next new
  let h ← setNext h new next
  let h ← setPrev h new prev
  setNext h prev new

def listAdd (h : Heap A) (new head : A) : Except (WildPointer A) (Heap A) := do
  listAddBetween h new head (← getNext h head)

def listAddTail (h : Heap A) (new head : A) : Except (WildPointer A) (Heap A) := do
  listAddBetween h new (← getPrev h head) head

/-- `__list_del(prev, next)` -/
def listDelBetween (h : Heap A) (prev next : A) : Except (WildPointer A) (Heap A) := do
  let h ← setPrev h next prev
  setNext h prev next

/-- `__list_del_entry(entry)` -/
def listDelEntry (h : Heap A) (entry : A) : Except (WildPointer A) (Heap A) := do
  listDelBetween h (← getPrev h entry) (← getNext h entry)

/-- `__list_del_clearprev(entry)` -/
def listDelClearprev (c : Constants A) (h : Heap A) (entry : A) :
    Except (WildPointer A) (Heap A) := do
  let h ← listDelEntry h entry
  setPrev h entry c.null

def listDel (c : Constants A) (h : Heap A) (entry : A) : Except (WildPointer A) (Heap A) := do
  let h ← listDelEntry h entry
  let h ← setNext h entry c.poison1
  setPrev h entry c.poison2

def listReplace (h : Heap A) (old new : A) : Except (WildPointer A) (Heap A) := do
  let h ← setNext h new (← getNext h old)
  let h ← setPrev h (← getNext h new) new
  let h ← setPrev h new (← getPrev h old)
  setNext h (← getPrev h new) new

def listReplaceInit (h : Heap A) (old new : A) : Except (WildPointer A) (Heap A) := do
  let h ← listReplace h old new
  initListHead h old

def listSwap (c : Constants A) (h : Heap A) (entry1 entry2 : A) :
    Except (WildPointer A) (Heap A) := do
  let pos ← getPrev h entry2
  let h ← listDel c h entry2
  let h ← listReplace h entry1 entry2
  let pos := if pos = entry1 then entry2 else pos
  listAdd h entry1 pos

def listDelInit (h : Heap A) (entry : A) : Except (WildPointer A) (Heap A) := do
  let h ← listDelEntry h entry
  initListHead h entry

def listMove (h : Heap A) (list head : A) : Except (WildPointer A) (Heap A) := do
  let h ← listDelEntry h list
  listAdd h list head

def listMoveTail (h : Heap A) (list head : A) : Except (WildPointer A) (Heap A) := do
  let h ← listDelEntry h list
  listAddTail h list head

def listBulkMoveTail (h : Heap A) (head first last : A) : Except (WildPointer A) (Heap A) := do
  let h ← setNext h (← getPrev h first) (← getNext h last)
  let h ← setPrev h (← getNext h last) (← getPrev h first)
  let h ← setNext h (← getPrev h head) first
  let h ← setPrev h first (← getPrev h head)
  let h ← setNext h last head
  setPrev h head last

/-! ### Tests -/

def listIsFirst (h : Heap A) (list head : A) : Except (WildPointer A) Bool := do
  return (← getPrev h list) = head

def listIsLast (h : Heap A) (list head : A) : Except (WildPointer A) Bool := do
  return (← getNext h list) = head

def listEmpty (h : Heap A) (head : A) : Except (WildPointer A) Bool := do
  return (← getNext h head) = head

def listEmptyCareful (h : Heap A) (head : A) : Except (WildPointer A) Bool := do
  let next ← getNext h head
  if next = head then return next = (← getPrev h head) else return false

def listIsSingular (h : Heap A) (head : A) : Except (WildPointer A) Bool := do
  if ← listEmpty h head then return false
  else return (← getNext h head) = (← getPrev h head)

/-! ### Whole lists -/

def listRotateLeft (h : Heap A) (head : A) : Except (WildPointer A) (Heap A) := do
  if ← listEmpty h head then return h
  else
    let first ← getNext h head
    listMoveTail h first head

def listRotateToFront (h : Heap A) (list head : A) : Except (WildPointer A) (Heap A) :=
  listMoveTail h head list

/-- `__list_cut_position(list, head, entry)` -/
def listCutBehind (h : Heap A) (list head entry : A) : Except (WildPointer A) (Heap A) := do
  let newFirst ← getNext h entry
  let h ← setNext h list (← getNext h head)
  let h ← setPrev h (← getNext h list) list
  let h ← setPrev h list entry
  let h ← setNext h entry list
  let h ← setNext h head newFirst
  setPrev h newFirst head

def listCutPosition (h : Heap A) (list head entry : A) : Except (WildPointer A) (Heap A) := do
  if ← listEmpty h head then return h
  else if (← listIsSingular h head) && ((← getNext h head) ≠ entry && head ≠ entry) then return h
  else if entry = head then initListHead h list
  else listCutBehind h list head entry

def listCutBefore (h : Heap A) (list head entry : A) : Except (WildPointer A) (Heap A) := do
  if (← getNext h head) = entry then initListHead h list
  else
    let h ← setNext h list (← getNext h head)
    let h ← setPrev h (← getNext h list) list
    let h ← setPrev h list (← getPrev h entry)
    let h ← setNext h (← getPrev h list) list
    let h ← setNext h head entry
    setPrev h entry head

/-- `__list_splice(list, prev, next)` -/
def listSpliceBetween (h : Heap A) (list prev next : A) : Except (WildPointer A) (Heap A) := do
  let first ← getNext h list
  let last ← getPrev h list
  let h ← setPrev h first prev
  let h ← setNext h prev first
  let h ← setNext h last next
  setPrev h next last

def listSplice (h : Heap A) (list head : A) : Except (WildPointer A) (Heap A) := do
  if ← listEmpty h list then return h
  else listSpliceBetween h list head (← getNext h head)

def listSpliceTail (h : Heap A) (list head : A) : Except (WildPointer A) (Heap A) := do
  if ← listEmpty h list then return h
  else listSpliceBetween h list (← getPrev h head) head

def listSpliceInit (h : Heap A) (list head : A) : Except (WildPointer A) (Heap A) := do
  if ← listEmpty h list then return h
  else
    let h ← listSpliceBetween h list head (← getNext h head)
    initListHead h list

def listSpliceTailInit (h : Heap A) (list head : A) : Except (WildPointer A) (Heap A) := do
  if ← listEmpty h list then return h
  else
    let h ← listSpliceBetween h list (← getPrev h head) head
    initListHead h list

end GoodCommand.KernelList
