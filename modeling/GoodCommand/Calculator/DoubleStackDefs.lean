import GoodCommand.Calculator.CRuntime
import GoodCommand.Library.Fuel

/-! The evaluator of `double_stack_224.c`, which evaluates while it scans: numbers wait on `npst`,
operators on `opst`. -/

namespace GoodCommand.Calculator.DoubleStack
open Fuel

/-- What a cell of `data` holds, and what a zeroed one reads as. -/
class Cell (α : Type) where
  zero : α

instance : Cell CInt := ⟨CInt.zero⟩

instance : Cell Char := ⟨'\x00'⟩

/-- The C `Stack`; `items` lists `data[it]` down to `data[0]`. The last two fields count the pops of
the empty stack and the "stack is full!" reports. -/
structure Stack (α : Type) where
  items : List α
  maxSize : CInt
  emptyPops : ℕ
  fullPushes : ℕ
  fits : items.length ≤ maxSize.val.toNat

variable {α : Type} [Cell α]

/-- The size is an `int`; `data` is set for a positive one only. -/
def stackInit (size : CInt) : Stack α := ⟨[], size, 0, 0, Nat.zero_le _⟩

def stackIsEmpty (st : Stack α) : Bool := st.items.isEmpty

/-- `it == max_size-1`. -/
def stackIsFull (st : Stack α) : Bool :=
  (st.items.length : ℤ) - 1 = (CInt.wrap (st.maxSize.val - 1)).val

def stackTop (st : Stack α) : α := st.items.headD Cell.zero

/-- A stack that is not full has no cell left only where the size is not positive. -/
def stackPush (st : Stack α) (e : α) : Except Fault (Stack α) :=
  if stackIsFull st then .ok { st with fullPushes := st.fullPushes + 1 }
  else if h : st.items.length < st.maxSize.val.toNat then
    .ok { st with items := e :: st.items, fits := h }
  else .error .unsetPointer

def stackPop (st : Stack α) : α × Stack α :=
  match h : st.items with
  | e :: es => (e, { st with items := es, fits := by have := st.fits; simp [h] at this; omega })
  | [] => (Cell.zero, { st with emptyPops := st.emptyPops + 1 })

/-- `free(stack->data)`. -/
def stackFree (st : Stack α) : Except Fault Unit :=
  if 0 < st.maxSize.val then .ok () else .error .unsetPointer

def doOneCal (P : Platform) (op : Char) (a1 a2 : CInt) : Except Fault CInt :=
  match op with
  | '+' => P.add a1 a2
  | '-' => P.sub a2 a1
  | '*' => P.mul a1 a2
  | '/' => P.div a2 a1
  | _ => .ok CInt.zero

structure Pair where
  opst : Stack Char
  npst : Stack CInt

def popAndCal (P : Platform) (st : Pair) : Except Fault Pair := do
  let (thisOp, opst) := stackPop st.opst
  let (a1, npst) := stackPop st.npst
  let (a2, npst) := stackPop npst
  let thisResult ← doOneCal P thisOp a1 a2
  let npst ← stackPush npst thisResult
  return ⟨opst, npst⟩

/-- `while(stack_top(opst) != (int)'(')`. -/
def closeBody (P : Platform) (st : Pair) : Prog Fault (Ctl Pair Pair) := do
  if stackTop st.opst ≠ '(' then
    let st ← popAndCal P st
    return .next st
  else return .exit st

/-- `while(prio(cu_op) <= prio(stack_top(opst)))`. -/
def reduceBody (P : Platform) (cuOp : Char) (st : Pair) : Prog Fault (Ctl Pair Pair) := do
  if prio P cuOp ≤ prio P (stackTop st.opst) then
    let st ← popAndCal P st
    if stackIsEmpty st.opst then return .exit st else return .next st
  else return .exit st

def pushOp (cuOp : Char) (st : Pair) : Except Fault Pair := do
  let opst ← stackPush st.opst cuOp
  return { st with opst := opst }

def calculateOp (P : Platform) (cuOp : Char) (st : Pair) : Prog Fault Pair := do
  if stackIsEmpty st.opst then pushOp cuOp st
  else if cuOp = '(' then pushOp cuOp st
  else if cuOp = ')' then
    let st ← loop (closeBody P) st
    return { st with opst := (stackPop st.opst).2 }
  else
    let st ← loop (reduceBody P cuOp) st
    pushOp cuOp st

structure Scan where
  scandIndex : ℕ
  pair : Pair

def calculateBody (P : Platform) (s : List Char) (st : Scan) : Prog Fault (Ctl Scan Pair) := do
  if (st.scandIndex : ℤ) < (strLen s).val then
    let numFlags := sscanfD P (s.drop st.scandIndex)
    let opFlags := sscanfC (s.drop st.scandIndex)
    match opFlags with
    | .read cuOp opReadCount =>
      if isLegalOp cuOp then
        let pair ← calculateOp P cuOp st.pair
        let scandIndex ← advance st.scandIndex opReadCount
        return .next ⟨scandIndex, pair⟩
      else if cuOp = ' ' then
        let scandIndex ← advance st.scandIndex opReadCount
        return .next { st with scandIndex := scandIndex }
      else
        match numFlags with
        | .read cuNum numReadCount =>
          let npst ← stackPush st.pair.npst cuNum
          let scandIndex ← advance st.scandIndex numReadCount
          return .next ⟨scandIndex, { st.pair with npst := npst }⟩
        | _ => return .next st
    -- "%c" finds no character only at the end of `s`, where the loop has stopped
    | _ => Prog.lift (.error .unset)
  else return .exit st.pair

/-- `while(!stack_is_empty(opst))`, after the scan. -/
def drainBody (P : Platform) (st : Pair) : Prog Fault (Ctl Pair Pair) := do
  if stackIsEmpty st.opst then return .exit st
  else
    let st ← popAndCal P st
    return .next st

def calculateStart (s : List Char) : Scan :=
  ⟨0, ⟨stackInit (strLen s), stackInit (strLen s)⟩⟩

/-- `calculate(s)` up to the final `stack_pop`. -/
def evaluate (P : Platform) (s : List Char) : Prog Fault Pair := do
  let st ← loop (calculateBody P s) (calculateStart s)
  loop (drainBody P) st

/-- `calculate(s)`: its value, and the stacks at the end. -/
def calculate (P : Platform) (s : List Char) : Prog Fault (CInt × Pair) := do
  let st ← evaluate P s
  let (finalResult, npst) := stackPop st.npst
  stackFree st.opst
  stackFree npst
  return (finalResult, ⟨st.opst, npst⟩)

end GoodCommand.Calculator.DoubleStack
