import GoodCommand.Calculator.CRuntime
import GoodCommand.Library.CString
import GoodCommand.Library.Fuel

/-! The evaluator of `224.c`: `mtob` writes the postfix text, `cal_bstr` evaluates it, and both keep
their stack, of printed tokens, in the globals `stack`, `it` and `stack_len`. Sizes and stack
indices are computed modulo 2^32, as on the machines that the program is built for. -/

namespace GoodCommand.Calculator.StringStack
open Fuel

def numMaxLen : ℕ := 20

structure NumOp where
  isNum : CInt
  numOp : List Char
  deriving DecidableEq

/-- The file-level variables. `overflows` counts the "stck overflow" reports of `stack_push`. -/
structure Globals where
  stack : List NumOp
  it : CInt
  stackLen : CInt
  overflows : ℕ
  deriving DecidableEq

def minusOne : CInt := ⟨-1, by decide⟩

def one : CInt := ⟨1, by decide⟩

def Globals.initial : Globals := ⟨[], minusOne, CInt.zero, 0⟩

/-- `malloc` for `n` cells, and `memset` to 0. A negative `n` is a huge `size_t`: `malloc` gives the
null pointer, and `memset` writes there. -/
def zeroed {α : Type} (zero : α) (n : CInt) : Except Fault (List α) :=
  if 0 ≤ n.val then .ok (List.replicate n.val.toNat zero) else .error .nullPointer

def stackInit (g : Globals) (len : CInt) : Except Fault Globals := do
  let stack ← zeroed ⟨CInt.zero, []⟩ (CInt.wrap (len.val + 1))
  return { g with stack := stack, stackLen := len }

def stackTop (g : Globals) : CInt := if g.it.val ≠ -1 then g.it else minusOne

def stackAt (g : Globals) (i : CInt) : Except Fault NumOp :=
  if 0 ≤ i.val then
    match g.stack[i.val.toNat]? with
    | some e => .ok e
    | none => .error (.stackIndex i.val)
  else .error (.stackIndex i.val)

/-- `strcpy` needs room for the text and its NUL in `num_op`. -/
def stackPush (g : Globals) (isNum : CInt) (numOp : List Char) : Except Fault Globals :=
  if g.it ≤ g.stackLen then
    let it := CInt.wrap (g.it.val + 1)
    if 0 ≤ it.val ∧ it.val.toNat < g.stack.length then
      if numOp.length < numMaxLen then
        .ok { g with it := it, stack := g.stack.set it.val.toNat ⟨isNum, numOp⟩ }
      else .error (.numOpIndex numOp.length)
    else .error (.stackIndex it.val)
  else .ok { g with overflows := g.overflows + 1 }

def stackPop (g : Globals) : CInt × Globals := (g.it, { g with it := CInt.wrap (g.it.val - 1) })

def isEmpty (g : Globals) : Bool := g.it.val = -1

def stackFree (g : Globals) : Globals := { g with stack := [] }

def firstChar (txt : List Char) : Char := txt.headD '\x00'

/-! ### The output buffer -/

def bufStore (buf : List Char) (i : ℕ) (txt : List Char) : Except Fault (List Char) :=
  store .bufferIndex buf i txt

/-- `strcpy(buf + i, src)`, which also stores the terminating NUL. -/
def strcpy (buf : List Char) (i : ℕ) (src : List Char) : Except Fault (List Char) :=
  bufStore buf i (src ++ ['\x00'])

/-! ### `mtob` -/

structure Scan where
  scandIndex : ℕ
  bi : ℕ
  bstr : List Char
  g : Globals
  deriving DecidableEq

/-- Pops an operator and appends it, as both inner loops do. -/
def emitOp (st : Scan) : Except Fault Scan := do
  let (t, g) := stackPop st.g
  let e ← stackAt g t
  let bstr ← strcpy st.bstr st.bi e.numOp
  let bi := st.bi + 1
  let bstr ← bufStore bstr bi [' ']
  return { st with bi := bi + 1, bstr := bstr, g := g }

/-- `while(stack[top].num_op[0] != '(')`. -/
def closeBody (st : Scan) : Prog Fault (Ctl Scan Scan) := do
  let e ← stackAt st.g (stackTop st.g)
  if firstChar e.numOp ≠ '(' then
    let st ← emitOp st
    return .next st
  else return .exit st

/-- `while(prio(cu_op) <= prio(stack[top].num_op[0]))`. -/
def reduceBody (P : Platform) (cuOp : Char) (st : Scan) : Prog Fault (Ctl Scan Scan) := do
  let e ← stackAt st.g (stackTop st.g)
  if prio P cuOp ≤ prio P (firstChar e.numOp) then
    let st ← emitOp st
    if isEmpty st.g then return .exit st else return .next st
  else return .exit st

def pushOp (cuOp : Char) (st : Scan) : Except Fault Scan := do
  let g ← stackPush st.g CInt.zero [cuOp]
  return { st with g := g }

/-- The operator branch of the scan, once `scand_index` has moved on. -/
def mtobOp (P : Platform) (cuOp : Char) (st : Scan) : Prog Fault Scan := do
  if isEmpty st.g then pushOp cuOp st
  else if cuOp = '(' then pushOp cuOp st
  else if cuOp = ')' then
    let st ← loop closeBody st
    return { st with g := (stackPop st.g).2 }
  else
    let st ← loop (reduceBody P cuOp) st
    pushOp cuOp st

/-- `sprintf(bstr+bi, "%d %n", cu_num, &num_len)`. -/
def emitNum (cuNum : CInt) (st : Scan) : Except Fault Scan := do
  let bstr ← strcpy st.bstr st.bi (printD cuNum ++ [' '])
  let numLen := (printD cuNum).length + 1
  return { st with bi := st.bi + numLen, bstr := bstr }

/-- One turn of the scanning loop; it exits with `none` through the error branch. -/
def mtobBody (P : Platform) (s : List Char) (st : Scan) : Prog Fault (Ctl Scan (Option Scan)) := do
  if (st.scandIndex : ℤ) < (strLen s).val then
    let oneNum := sscanfD P (s.drop st.scandIndex)
    let oneOp := sscanfC (s.drop st.scandIndex)
    match oneOp with
    | .read cuOp readOp =>
      if isLegalOp cuOp then
        let scandIndex ← advance st.scandIndex readOp
        let st ← mtobOp P cuOp { st with scandIndex := scandIndex }
        return .next st
      else if cuOp = ' ' then
        let scandIndex ← advance st.scandIndex readOp
        return .next { st with scandIndex := scandIndex }
      else
        match oneNum with
        | .read cuNum readNum =>
          let st ← emitNum cuNum st
          let scandIndex ← advance st.scandIndex readNum
          return .next { st with scandIndex := scandIndex }
        | _ =>
          if oneNum.ret = 0 ∧ oneOp.ret = 0 then return .exit none
          else return .next st
    -- "%c" finds no character only at the end of `s`, where the loop has stopped
    | _ => Prog.lift (.error .unset)
  else return .exit (some st)

/-- `while(!is_empty())`, after the scan. -/
def drainBody (st : Scan) : Prog Fault (Ctl Scan Scan) := do
  if isEmpty st.g then return .exit st
  else
    let (t, g) := stackPop st.g
    let e ← stackAt g t
    let bstr ← strcpy st.bstr st.bi e.numOp
    let bi := st.bi + e.numOp.length
    let bstr ← bufStore bstr bi [' ']
    return .next { st with bi := bi + 1, bstr := bstr, g := g }

/-- `int bstr_len = (str_len+1)*2`, the two buffers, and the locals that the scan begins with. -/
def mtobStart (s : List Char) (g : Globals) : Except Fault Scan := do
  let bstrLen := CInt.wrap ((CInt.wrap ((strLen s).val + 1)).val * 2)
  let bstr ← zeroed '\x00' bstrLen
  let g ← stackInit g (strLen s)
  return ⟨0, 0, bstr, g⟩

/-- `mtob(s)`: the buffer it returns (`none` is the null pointer) and the globals it leaves. -/
def mtob (P : Platform) (s : List Char) (g : Globals) :
    Prog Fault (Option (List Char) × Globals) := do
  let st ← mtobStart s g
  if (strLen s).val = 0 then return (some st.bstr, st.g)
  else
    match ← loop (mtobBody P s) st with
    | none => return (none, st.g)
    | some st =>
      let st ← loop drainBody st
      return (some st.bstr, stackFree st.g)

/-! ### `cal_bstr` -/

/-- `sscanf(txt, "%d", &a)` into a variable that has no value yet. -/
def readInt (P : Platform) (txt : List Char) : Except Fault CInt :=
  match sscanfD P txt with
  | .read v _ => .ok v
  | _ => .error .unset

/-- `switch(cu_op)`. -/
def calOp (P : Platform) (cuOp : Char) (a1 a2 : CInt) : Except Fault CInt :=
  match cuOp with
  | '+' => P.add a1 a2
  | '-' => P.sub a2 a1
  | '*' => P.mul a1 a2
  | '/' => P.div a2 a1
  | _ => .ok CInt.zero

structure Cal where
  scandIndex : ℕ
  g : Globals
  deriving DecidableEq

def calBstrOp (P : Platform) (cuOp : Char) (g : Globals) : Except Fault Globals := do
  let (t1, g) := stackPop g
  let (t2, g) := stackPop g
  let e1 ← stackAt g t1
  let a1 ← readInt P e1.numOp
  let e2 ← stackAt g t2
  let a2 ← readInt P e2.numOp
  let result ← calOp P cuOp a1 a2
  stackPush g one (printD result)

def calBody (P : Platform) (s : List Char) (st : Cal) : Prog Fault (Ctl Cal Globals) := do
  if (st.scandIndex : ℤ) < (strLen s).val then
    let oneNum := sscanfD P (s.drop st.scandIndex)
    let oneOp := sscanfC (s.drop st.scandIndex)
    match oneOp with
    | .read cuOp readOp =>
      if isLegalOp cuOp then
        let scandIndex ← advance st.scandIndex readOp
        let g ← calBstrOp P cuOp st.g
        return .next ⟨scandIndex, g⟩
      else if cuOp = ' ' then
        let scandIndex ← advance st.scandIndex readOp
        return .next { st with scandIndex := scandIndex }
      else
        match oneNum with
        | .read cuNum readNum =>
          let g ← stackPush st.g one (printD cuNum)
          let scandIndex ← advance st.scandIndex readNum
          return .next ⟨scandIndex, g⟩
        | _ => return .next st
    | _ => Prog.lift (.error .unset)
  else return .exit st.g

def calBstr (P : Platform) (s : List Char) (g : Globals) : Prog Fault (CInt × Globals) := do
  let g ← stackInit g (strLen s)
  if (strLen s).val ≤ 0 then return (CInt.zero, g)
  else
    let g ← loop (calBody P s) ⟨0, g⟩
    let (r, g) := stackPop g
    let e ← stackAt g r
    let rNum ← readInt P e.numOp
    return (rNum, stackFree g)

/-- `cal_bstr(sb)` reads `sb` up to a NUL, which has to be in the buffer. -/
def calculate (P : Platform) (s : List Char) (g : Globals) : Prog Fault (CInt × Globals) := do
  match ← mtob P s g with
  | (some sb, g) =>
    if '\x00' ∈ sb then calBstr P (cString sb) g else Prog.lift (.error (.bufferIndex sb.length))
  | (none, _) => Prog.lift (.error .nullPointer)

end GoodCommand.Calculator.StringStack
