import GoodCommand.Library.Arr
import GoodCommand.Library.CInt
import GoodCommand.Library.CString
import GoodCommand.Library.Fuel

/-! `reverseWords` of `151-reverse-words-in-a-string.c`. `int` arithmetic is modulo 2^32, as on the
machines that the program is built for. -/

namespace GoodCommand.ReverseWords
open Fuel

/-- `s[j]`; the NUL may be read, too. -/
def charAt (s : CString) (j : ℤ) : Except OutOfBounds Char := Arr.get (s.chars ++ ['\x00']) j

/-- The string at `s + j`. -/
def suffix (s : CString) (j : ℤ) : Except OutOfBounds (List Char) :=
  if 0 ≤ j ∧ j ≤ s.len then .ok (s.chars.drop j.toNat) else .error ⟨j⟩

/-- `strncpy(r + j, src, n)`: a string shorter than `n` is filled up with NULs. A negative `n` would
be a huge `size_t`. -/
def strncpy (r : List Char) (j : ℤ) (src : List Char) (n : ℤ) : Except OutOfBounds (List Char) :=
  if 0 ≤ j ∧ 0 ≤ n then
    store (fun i => OutOfBounds.mk i) r j.toNat
      (src.take n.toNat ++ List.replicate (n.toNat - src.length) '\x00')
  else .error ⟨j⟩

/-- `while(i != -1 && s[i] == ' ')i--;` -/
def skipBody (s : CString) (i : CInt) : Prog OutOfBounds (Ctl CInt CInt) := do
  if i.val ≠ -1 then
    let c ← charAt s i
    if c = ' ' then return .next (CInt.wrap (i.val - 1)) else return .exit i
  else return .exit i

/-- `while(i>=0 && s[i] != ' ')i--;` -/
def wordBody (s : CString) (i : CInt) : Prog OutOfBounds (Ctl CInt CInt) := do
  if 0 ≤ i.val then
    let c ← charAt s i
    if c ≠ ' ' then return .next (CInt.wrap (i.val - 1)) else return .exit i
  else return .exit i

structure Scan where
  i : CInt
  j : CInt
  wordBegin : CInt
  wordEnd : CInt
  r : List Char
  deriving DecidableEq

/-- The new `word_begin`; `printf("error...")` leaves the old one. -/
def findBegin (s : CString) (i wordBegin : CInt) : Except OutOfBounds CInt := do
  if i.val = -1 then return .zero
  else
    let c ← charAt s i
    if c = ' ' then return CInt.wrap (i.val + 1) else return wordBegin

/-- `if(j != 0)r[j++]=' ';` -/
def separate (r : List Char) (j : CInt) : Except OutOfBounds (List Char × CInt) := do
  if j.val ≠ 0 then
    let r ← Arr.set r j ' '
    return (r, CInt.wrap (j.val + 1))
  else return (r, j)

def scanBody (s : CString) (st : Scan) : Prog OutOfBounds (Ctl Scan (List Char)) := do
  if 0 ≤ st.i.val then
    let i ← loop (skipBody s) st.i
    if i.val = -1 then return .exit st.r
    else
      let wordEnd := i
      let i ← loop (wordBody s) i
      let wordBegin ← findBegin s i st.wordBegin
      let (r, j) ← separate st.r st.j
      let src ← suffix s wordBegin
      let r ← strncpy r j src (CInt.wrap (wordEnd.val - wordBegin.val + 1))
      return .next ⟨CInt.wrap (i.val - 1), CInt.wrap (j.val + wordEnd.val - wordBegin.val + 1),
        wordBegin, wordEnd, r⟩
  else return .exit st.r

def start (len : CInt) (r : List Char) : Scan :=
  ⟨CInt.wrap (len.val - 1), .zero, CInt.wrap (len.val - 1), CInt.wrap (len.val - 1), r⟩

/-- `reverseWords(s)`: the buffer `r` that it returns. -/
def reverseWords (s : CString) : Prog OutOfBounds (List Char) := do
  let len := CInt.wrap s.len
  let r ← Arr.malloc (fun _ => '\x00') (CInt.wrap (len.val + 1))
  if len.val = 0 then return r
  else loop (scanBody s) (start len r)

end GoodCommand.ReverseWords
