import GoodCommand.Library.CharString
import GoodCommand.Library.Fuel
import GoodCommand.Library.Qsort

/-! `frequencySort` of `451-sort-frequency.c`. `int` arithmetic is modulo 2^32, as on the machines
that the program is built for. -/

namespace GoodCommand.FrequencySort
open Fuel

variable {T : CharType}

structure Elemnt where
  e : ℤ
  frequency : CInt
  deriving DecidableEq

def compare (first second : Elemnt) : CInt :=
  CInt.wrap (second.frequency.val - first.frequency.val)

/-- `while(s[i])`, on the local `i` and the array `pool`. -/
def countBody (s : CharString T) (st : CInt × List Elemnt) :
    Prog OutOfBounds (Ctl (CInt × List Elemnt) (CInt × List Elemnt)) := do
  let c ← s.charAt st.1
  if c ≠ 0 then
    let el ← Arr.get st.2 c
    let pool ← Arr.set st.2 c ⟨c, CInt.wrap (el.frequency.val + 1)⟩
    return .next (CInt.wrap (st.1.val + 1), pool)
  else return .exit st

structure Write where
  fre : ℤ
  count : ℤ
  ret : List ℤ
  deriving DecidableEq

/-- `while(fre)` -/
def writeBody (pool : List Elemnt) (i : ℤ) (st : Write) :
    Prog OutOfBounds (Ctl Write (ℤ × List ℤ)) := do
  if st.fre ≠ 0 then
    let el ← Arr.get pool i
    let ret ← Arr.set st.ret st.count el.e
    return .next ⟨st.fre - 1, st.count + 1, ret⟩
  else return .exit (st.count, st.ret)

structure Emit where
  i : ℤ
  count : ℤ
  ret : List ℤ
  deriving DecidableEq

/-- `for(int i = 0; i < CHAR_MAX && pool[i].e > 0; i++)` -/
def emitBody (T : CharType) (pool : List Elemnt) (st : Emit) :
    Prog OutOfBounds (Ctl Emit (List ℤ)) := do
  if st.i < T.max then
    let el ← Arr.get pool st.i
    if el.e > 0 then
      let (count, ret) ← loop (writeBody pool st.i) ⟨el.frequency.val, st.count, st.ret⟩
      return .next ⟨st.i + 1, count, ret⟩
    else return .exit st.ret
  else return .exit st.ret

/-- `frequencySort(s)`: the memory `ret` that it returns. -/
def frequencySort (q : Qsort Elemnt) (s : CharString T) : Prog OutOfBounds (List ℤ) := do
  let pool ← Arr.malloc (fun _ => ⟨0, CInt.zero⟩) T.max
  let (strlen, pool) ← loop (countBody s) (CInt.zero, pool)
  let pool ← q.run pool T.max compare
  let ret ← Arr.malloc (fun _ => 0) (CInt.wrap (strlen.val + 1))
  loop (emitBody T pool) ⟨0, 0, ret⟩

end GoodCommand.FrequencySort
