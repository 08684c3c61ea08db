import GoodCommand.Library.CInt
import GoodCommand.Library.CharString
import GoodCommand.Library.Fuel

/-! `lengthOfLongestSubstring` of `3-longest-substring-without-repeating-characters.c`. The local
`end` is called `stop` here. `int` arithmetic is modulo 2^32, as on the machines that the program is
built for. -/

namespace GoodCommand.LongestSubstring
open Fuel

variable {T : CharType}

/-- `for(;i<end && s[i]!=s[end];i++);` -/
def findBody (s : CharString T) (stop i : CInt) : Prog OutOfBounds (Ctl CInt CInt) := do
  if i < stop then
    let a ← s.charAt i
    let b ← s.charAt stop
    if a ≠ b then return .next (CInt.wrap (i.val + 1)) else return .exit i
  else return .exit i

structure Scan where
  start : CInt
  stop : CInt
  maxlength : CInt
  map : List ℤ
  deriving DecidableEq

/-- The end of an iteration: `end++`, and the new `maxlength`. -/
def advance (st : Scan) : Scan :=
  let stop := CInt.wrap (st.stop.val + 1)
  let length := CInt.wrap (stop.val - st.start.val)
  { st with
    stop := stop
    maxlength := if st.maxlength > length then st.maxlength else length }

def scanBody (s : CharString T) (st : Scan) : Prog OutOfBounds (Ctl Scan CInt) := do
  let c ← s.charAt st.stop
  if 0 ≠ c then
    let seen ← Arr.get st.map c
    if seen = 1 then
      let i ← loop (findBody s st.stop) st.start
      let start := if i ≠ st.stop then CInt.wrap (i.val + 1) else st.start
      return .next (advance { st with start := start })
    else if seen = 0 then
      let map ← Arr.set st.map c 1
      return .next (advance { st with map := map })
    -- `printf("error")`
    else return .next (advance st)
  else return .exit st.maxlength

def lengthOfLongestSubstring (s : CharString T) : Prog OutOfBounds CInt :=
  loop (scanBody s) ⟨.zero, .zero, .zero, List.replicate 256 0⟩

end GoodCommand.LongestSubstring
