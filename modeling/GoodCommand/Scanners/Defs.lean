import GoodCommand.Calculator.CRuntime
import GoodCommand.Library.Fuel

/-! Two programs that scan a text with `sscanf`: `sscanf.c` prints the tokens of an expression,
`as.c` the numbers in a text. Each has its text in a variable, which is a parameter here. -/

namespace GoodCommand.Scanners
open Calculator Fuel

namespace SscanfC

structure State where
  scandIndex : ℕ
  out : List Char

/-- `while(scand_index < len)` -/
def mainBody (P : Platform) (s2 : List Char) (st : State) : Prog Fault (Ctl State (List Char)) := do
  if st.scandIndex < s2.length then
    let oneNum := sscanfD P (s2.drop st.scandIndex)
    let oneOp := sscanfC (s2.drop st.scandIndex)
    match oneOp with
    | .read cuOp readOp =>
      if isLegalOp cuOp then
        return .next ⟨st.scandIndex + readOp, st.out ++ [cuOp, '\n']⟩
      else if cuOp = ' ' then return .next { st with scandIndex := st.scandIndex + readOp }
      else
        match oneNum with
        | .read cuNum readNum =>
          return .next ⟨st.scandIndex + readNum, st.out ++ (printD cuNum ++ ['\n'])⟩
        | _ =>
          if oneNum.ret = 0 ∧ oneOp.ret = 0 then
            return .exit (st.out ++ ['e', 'r', 'r', 'o', 'r', '\n'])
          else return .next st
    -- "%c" finds no character only at the end of `s2`, where the loop has stopped
    | _ => Prog.lift (.error .unset)
  else return .exit (st.out ++ ['\n'])

/-- What `main` prints. -/
def main (P : Platform) (s2 : List Char) : Prog Fault (List Char) := loop (mainBody P s2) ⟨0, []⟩

end SscanfC

namespace AsC

/-- A line of the output: `k,v,n=%d,%d,%d`, `skip char[%c]` or `End.`. -/
inductive Line where
  | kvn (k : ℤ) (v : CInt) (n : ℕ)
  | skip (c : Char)
  | theEnd
  deriving DecidableEq

/-- `p` as an index into `s`, the globals `v` and `n`, and what has been printed. -/
structure State where
  p : ℕ
  v : CInt
  n : ℕ
  out : List Line

/-- `while (1)` -/
def mainBody (P : Platform) (s : List Char) (st : State) : Prog Fault (Ctl State (List Line)) :=
  match sscanfD P (s.drop st.p) with
  | .read v n => pure (.next ⟨st.p + n, v, n, st.out ++ [.kvn 1 v n]⟩)
  | .noMatch =>
    let c := (s.drop st.p).headD '\x00'
    pure (.next { st with p := st.p + 1, out := st.out ++ [.kvn 0 st.v st.n, .skip c] })
  | .eof => pure (.exit (st.out ++ [.kvn (-1) st.v st.n, .theEnd]))

/-- What `main` prints. -/
def main (P : Platform) (s : List Char) : Prog Fault (List Line) :=
  loop (mainBody P s) ⟨0, CInt.zero, 0, []⟩

end AsC

end GoodCommand.Scanners
