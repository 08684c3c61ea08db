import GoodCommand.Library.Fuel

/-! The lists with a single pointer list head of `linux/list.h`. The member `pprev` of a node is the
address of the pointer to the node, a slot: the member `first` of a head or the member `next` of
another node. -/

namespace GoodCommand.HashList
open Fuel

inductive Slot (H N : Type) where
  | first (h : H)
  | next (n : N)
  deriving DecidableEq

/-- The addresses at which there is a `struct hlist_head` or a `struct hlist_node`, and the members.
The pointer `none` is `NULL`. -/
structure Heap (H N : Type) where
  mappedHead : H → Bool
  mappedNode : N → Bool
  first : H → Option N
  next : N → Option N
  pprev : N → Option (Slot H N)

/-- What was to be read or written where there is none: a slot, the member `pprev` of a node, or
whatever `NULL` points to. -/
inductive WildPointer (H N : Type) where
  | slot (s : Slot H N)
  | pprev (n : N)
  | null
  deriving DecidableEq

/-- `LIST_POISON1` and `LIST_POISON2`. -/
structure Constants (H N : Type) where
  poison1 : N
  poison2 : Slot H N

variable {H N : Type} [DecidableEq H] [DecidableEq N]

def Heap.mapped (h : Heap H N) : Slot H N → Bool
  | .first hd => h.mappedHead hd
  | .next n => h.mappedNode n

def Heap.target (h : Heap H N) : Slot H N → Option N
  | .first hd => h.first hd
  | .next n => h.next n

def Heap.withTarget (h : Heap H N) (s : Slot H N) (p : Option N) : Heap H N :=
  match s with
  | .first hd => { h with first := Function.update h.first hd p }
  | .next n => { h with next := Function.update h.next n p }

def Heap.withPprev (h : Heap H N) (n : N) (s : Option (Slot H N)) : Heap H N :=
  { h with pprev := Function.update h.pprev n s }

/-- `*s` -/
def getTarget (h : Heap H N) (s : Slot H N) : Except (WildPointer H N) (Option N) :=
  if h.mapped s then .ok (h.target s) else .error (.slot s)

/-- `n->pprev` -/
def getPprev (h : Heap H N) (n : N) : Except (WildPointer H N) (Option (Slot H N)) :=
  if h.mappedNode n then .ok (h.pprev n) else .error (.pprev n)

/-- `*s = p` -/
def setTarget (h : Heap H N) (s : Option (Slot H N)) (p : Option N) :
    Except (WildPointer H N) (Heap H N) :=
  match s with
  | none => .error .null
  | some s => if h.mapped s then .ok (h.withTarget s p) else .error (.slot s)

/-- `n->pprev = s` -/
def setPprev (h : Heap H N) (n : N) (s : Option (Slot H N)) : Except (WildPointer H N) (Heap H N) :=
  if h.mappedNode n then .ok (h.withPprev n s) else .error (.pprev n)

/-- `if (p) p->pprev = s` -/
def setPprevOf (h : Heap H N) (p : Option N) (s : Option (Slot H N)) :
    Except (WildPointer H N) (Heap H N) :=
  match p with
  | none => .ok h
  | some n => setPprev h n s

/-- `INIT_HLIST_HEAD(ptr)` -/
def initHlistHead (h : Heap H N) (ptr : H) : Except (WildPointer H N) (Heap H N) :=
  setTarget h (some (.first ptr)) none

/-- `INIT_HLIST_NODE(n)` -/
def initHlistNode (h : Heap H N) (n : N) : Except (WildPointer H N) (Heap H N) := do
  let h ← setTarget h (some (.next n)) none
  setPprev h n none

def hlistUnhashed (h : Heap H N) (n : N) : Except (WildPointer H N) Bool := do
  return (← getPprev h n) = none

def hlistEmpty (h : Heap H N) (hd : H) : Except (WildPointer H N) Bool := do
  return (← getTarget h (.first hd)) = none

/-- `__hlist_del(n)` -/
def hlistUnlink (h : Heap H N) (n : N) : Except (WildPointer H N) (Heap H N) := do
  let next ← getTarget h (.next n)
  let pprev ← getPprev h n
  let h ← setTarget h pprev next
  setPprevOf h next pprev

def hlistDel (c : Constants H N) (h : Heap H N) (n : N) : Except (WildPointer H N) (Heap H N) := do
  let h ← hlistUnlink h n
  let h ← setTarget h (some (.next n)) (some c.poison1)
  setPprev h n (some c.poison2)

def hlistDelInit (h : Heap H N) (n : N) : Except (WildPointer H N) (Heap H N) := do
  if ← hlistUnhashed h n then return h
  else
    let h ← hlistUnlink h n
    initHlistNode h n

def hlistAddHead (h : Heap H N) (n : N) (hd : H) : Except (WildPointer H N) (Heap H N) := do
  let first ← getTarget h (.first hd)
  let h ← setTarget h (some (.next n)) first
  let h ← setPprevOf h first (some (.next n))
  let h ← setTarget h (some (.first hd)) (some n)
  setPprev h n (some (.first hd))

def hlistAddBefore (h : Heap H N) (n next : N) : Except (WildPointer H N) (Heap H N) := do
  let h ← setPprev h n (← getPprev h next)
  let h ← setTarget h (some (.next n)) (some next)
  let h ← setPprev h next (some (.next n))
  setTarget h (← getPprev h n) (some n)

def hlistAddBehind (h : Heap H N) (n prev : N) : Except (WildPointer H N) (Heap H N) := do
  let h ← setTarget h (some (.next n)) (← getTarget h (.next prev))
  let h ← setTarget h (some (.next prev)) (some n)
  let h ← setPprev h n (some (.next prev))
  setPprevOf h (← getTarget h (.next n)) (some (.next n))

def hlistAddFake (h : Heap H N) (n : N) : Except (WildPointer H N) (Heap H N) :=
  setPprev h n (some (.next n))

def hlistFake (h : Heap H N) (n : N) : Except (WildPointer H N) Bool := do
  return (← getPprev h n) = some (.next n)

def hlistIsSingularNode (h : Heap H N) (n : N) (hd : H) : Except (WildPointer H N) Bool := do
  if (← getTarget h (.next n)) = none then return (← getPprev h n) = some (.first hd)
  else return false

def hlistMoveList (h : Heap H N) (old new : H) : Except (WildPointer H N) (Heap H N) := do
  let h ← setTarget h (some (.first new)) (← getTarget h (.first old))
  let h ← setPprevOf h (← getTarget h (.first new)) (some (.first new))
  setTarget h (some (.first old)) none

/-! ### Loops -/

/-- `pos; pos = pos->next`, with the heap, `pos` and the nodes that have been visited. -/
def hlistForEachTurn (body : Heap H N → N → Except (WildPointer H N) (Heap H N))
    (st : Heap H N × Option N × List N) :
    Prog (WildPointer H N) (Ctl (Heap H N × Option N × List N) (Heap H N × List N)) := do
  match st with
  | (h, none, visited) => return .exit (h, visited)
  | (h, some pos, visited) =>
    let h ← body h pos
    let pos' ← getTarget h (.next pos)
    return .next (h, pos', visited ++ [pos])

/-- `hlist_for_each(pos, head)` -/
def hlistForEach (body : Heap H N → N → Except (WildPointer H N) (Heap H N)) (h : Heap H N)
    (hd : H) : Prog (WildPointer H N) (Heap H N × List N) := do
  let pos ← getTarget h (.first hd)
  loop (hlistForEachTurn body) (h, pos, [])

/-- `pos && ({ n = pos->next; 1; }); pos = n`, with the heap, `pos` and the nodes that have been
visited. -/
def hlistForEachSafeTurn (body : Heap H N → N → Except (WildPointer H N) (Heap H N))
    (st : Heap H N × Option N × List N) :
    Prog (WildPointer H N) (Ctl (Heap H N × Option N × List N) (Heap H N × List N)) := do
  match st with
  | (h, none, visited) => return .exit (h, visited)
  | (h, some pos, visited) =>
    let n ← getTarget h (.next pos)
    let h ← body h pos
    return .next (h, n, visited ++ [pos])

/-- `hlist_for_each_safe(pos, n, head)` -/
def hlistForEachSafe (body : Heap H N → N → Except (WildPointer H N) (Heap H N)) (h : Heap H N)
    (hd : H) : Prog (WildPointer H N) (Heap H N × List N) := do
  let pos ← getTarget h (.first hd)
  loop (hlistForEachSafeTurn body) (h, pos, [])

end GoodCommand.HashList
