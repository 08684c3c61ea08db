import GoodCommand.Library.Qsort

/-! The functions of `kSmallestPairs.c`. `int` arithmetic is modulo 2^32, as on the machines that
the program is built for. -/

namespace GoodCommand.SmallestPairs

structure SumAll where
  u1 : CInt
  u2 : CInt
  sum : CInt
  deriving DecidableEq

def cpmSum (a b : SumAll) : CInt := CInt.wrap (a.sum.val - b.sum.val)

/-- The body of the inner loop, on the array `sa` and the local `m`. -/
def fillBody (nums1 nums2 : List CInt) (i : ℕ) (st : List SumAll × CInt) (j : ℕ) :
    Except OutOfBounds (List SumAll × CInt) := do
  let u1 ← Arr.get nums1 i
  let u2 ← Arr.get nums2 j
  let sa ← Arr.set st.1 st.2 ⟨u1, u2, CInt.wrap (u1.val + u2.val)⟩
  return (sa, CInt.wrap (st.2.val + 1))

def fill (nums1 nums2 : List CInt) (sa : List SumAll) : Except OutOfBounds (List SumAll × CInt) :=
  (List.range nums1.length).foldlM
    (fun st i => (List.range nums2.length).foldlM (fillBody nums1 nums2 i) st) (sa, CInt.zero)

/-- The body of the loop over `n`; `re[n]` becomes a new array of two. -/
def pairBody (sa : List SumAll) (re : List (Option (List CInt))) (n : ℕ) :
    Except OutOfBounds (List (Option (List CInt))) := do
  let s ← Arr.get sa n
  Arr.set re n (some [s.u1, s.u2])

structure Result where
  re : List (Option (List CInt))
  returnSize : CInt
  returnColumnSizes : List ℤ
  deriving DecidableEq

/-- `kSmallestPairs(nums1, nums1Size, nums2, nums2Size, k, …)`. The memory for `sa` and
`*returnColumnSizes` holds `junk` and `junkSizes` before it is written. -/
def kSmallestPairs (q : Qsort SumAll) (junk : ℕ → SumAll) (junkSizes : ℕ → ℤ)
    (nums1 nums2 : List CInt) (k : CInt) : Except OutOfBounds Result := do
  let sa ← Arr.malloc junk (nums1.length * nums2.length)
  let (sa, m) ← fill nums1 nums2 sa
  let sa ← q.run sa (CInt.wrap (nums1.length * nums2.length)) cpmSum
  let re ← Arr.malloc (fun _ => none) k
  -- `n < k && n < m`
  let re ← (List.range (min k m).val.toNat).foldlM (pairBody sa) re
  let min := if k < m then k else m
  let sizes ← Arr.malloc junkSizes min
  let sizes ← (List.range min.val.toNat).foldlM (fun sizes (i : ℕ) => Arr.set sizes i 2) sizes
  return ⟨re, min, sizes⟩

end GoodCommand.SmallestPairs
