import GoodCommand.Library.Fuel
import GoodCommand.Library.Qsort

/-! The program `sumk.c`, without the unfinished `if` at the end of its loop. `int` arithmetic is
modulo 2^32 and `unsigned long long` arithmetic modulo 2^64, as on the machines that the program is
built for. -/

namespace GoodCommand.SumK
open Fuel

def maxn : ℕ := 200001

def compare (a b : CInt) : CInt := CInt.wrap (a.val - b.val)

/-- `scanf("%d", &a[i])` on the numbers `input`; behind the last one it stores nothing. -/
def scanBody (input a : List CInt) (i : ℕ) : Except OutOfBounds (List CInt) :=
  match input[i]? with
  | some v => Arr.set a i v
  | none => .ok a

/-- The array `a` when the loop over `i` and `j` starts. -/
def sorted (q : Qsort CInt) (n : CInt) (input : List CInt) : Except OutOfBounds (List CInt) := do
  let a ← (List.range n.val.toNat).foldlM (scanBody input) (List.replicate maxn CInt.zero)
  q.run a n.val compare

/-- The locals `i`, `j` and `count`. -/
structure Pointers where
  i : CInt
  j : CInt
  count : ℕ
  deriving DecidableEq

/-- `count + d`, for an `int` that is converted to `unsigned long long`. -/
def addCount (count : ℕ) (d : CInt) : ℕ := ((count + d.val) % 18446744073709551616).toNat

def countBody (a : List CInt) (k : CInt) (st : Pointers) :
    Prog OutOfBounds (Ctl Pointers ℕ) := do
  if st.i < st.j then
    let x ← Arr.get a st.i.val
    let y ← Arr.get a st.j.val
    if k < CInt.wrap (x.val + y.val) then
      return .next { st with j := CInt.wrap (st.j.val - 1) }
    else
      return .next { st with
        count := addCount st.count (CInt.wrap (st.j.val - st.i.val))
        i := CInt.wrap (st.i.val + 1) }
  else return .exit st.count

def countStart (n : CInt) : Pointers := ⟨CInt.zero, CInt.wrap (n.val - 1), 0⟩

/-- The value of `count` when `main`, which has read `n` and `k`, prints it. -/
def main (q : Qsort CInt) (n k : CInt) (input : List CInt) : Prog OutOfBounds ℕ := do
  let a ← sorted q n input
  loop (countBody a k) (countStart n)

end GoodCommand.SumK
