import GoodCommand.Library.CInt
import GoodCommand.Library.CString
import GoodCommand.Library.Fuel

/-! `longestPalindrome` of `5-longest-palindromic-substring.c`. What it prints is left out. The
`int`s of the scan stay below `len`, which is the length of the string modulo 2^32. -/

namespace GoodCommand.Palindrome
open Fuel

inductive Fault where
  | stringIndex (j : ℤ)
  | bufferIndex (i : ℕ)
  | noArgument
  deriving DecidableEq

/-- `s[j]`. -/
def charAt (s : CString) (j : ℤ) : Except Fault Char :=
  if 0 ≤ j ∧ j ≤ s.len then .ok (s.chars.getD j.toNat '\x00') else .error (.stringIndex j)

/-- The string at `s + j`. -/
def suffix (s : CString) (j : ℤ) : Except Fault (List Char) :=
  if 0 ≤ j ∧ j ≤ s.len then .ok (s.chars.drop j.toNat) else .error (.stringIndex j)

/-- What `printf` makes of a format that no arguments follow: `%%` stands for one `%`, every other
conversion would need an argument. -/
def format : List Char → Except Fault (List Char)
  | [] => .ok []
  | '%' :: '%' :: fmt => do
    let out ← format fmt
    return '%' :: out
  | '%' :: _ => .error .noArgument
  | c :: fmt => do
    let out ← format fmt
    return c :: out

/-- `snprintf(r, n, fmt)`. -/
def snprintf (r : List Char) (n : ℕ) (fmt : List Char) : Except Fault (List Char) := do
  let out ← format fmt
  if n = 0 then return r
  else store .bufferIndex r 0 (out.take (n - 1) ++ ['\x00'])

/-- An `int` that is passed as a `size_t`. -/
def sizeT (n : CInt) : ℕ := (n.val % 18446744073709551616).toNat

structure Arms where
  step : ℤ
  best : ℤ
  index : ℤ

/-- The inner loops: `step` is the local of that name, `best` and `index` are `odd_step` and
`odd_index` for `d = 1`, `even_step` and `even_index` for `d = 0`. -/
def armsBody (s : CString) (len : CInt) (i d : ℤ) (st : Arms) : Prog Fault (Ctl Arms Arms) := do
  if 0 ≤ i - st.step ∧ i + st.step + d < len.val then
    let a ← charAt s (i - st.step)
    let b ← charAt s (i + st.step + d)
    if a = b then
      if st.best ≤ st.step + 1 then return .next ⟨st.step + 1, st.step + 1, i⟩
      else return .next ⟨st.step + 1, st.best, st.index⟩
    else return .exit st
  else return .exit st

structure Scan where
  i : ℤ
  oddStep : ℤ
  oddIndex : ℤ
  evenStep : ℤ
  evenIndex : ℤ

def scanBody (s : CString) (len : CInt) (st : Scan) : Prog Fault (Ctl Scan Scan) := do
  if st.i < len.val then
    let odd ← loop (armsBody s len st.i 1) ⟨0, st.oddStep, st.oddIndex⟩
    let even ← loop (armsBody s len st.i 0) ⟨0, st.evenStep, st.evenIndex⟩
    return .next ⟨st.i + 1, odd.best, odd.index, even.best, even.index⟩
  else return .exit st

/-- `longestPalindrome(s)`: the buffer `r` that it returns. -/
def longestPalindrome (s : CString) : Prog Fault (List Char) := do
  let len := CInt.wrap s.len
  let st ← loop (scanBody s len) ⟨0, 0, 0, 0, 0⟩
  let r := buffer 1001 []
  if len.val = 0 then return r
  else if st.oddStep ≥ st.evenStep then
    let fmt ← suffix s (st.oddIndex - st.oddStep + 1)
    snprintf r (sizeT (CInt.wrap (st.oddStep * 2 + 1))) fmt
  else
    let fmt ← suffix s (st.evenIndex - st.evenStep + 1)
    snprintf r (sizeT (CInt.wrap (st.evenStep * 2))) fmt

end GoodCommand.Palindrome
