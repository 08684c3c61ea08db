import GoodCommand.Library.Arr
import GoodCommand.Library.CInt

/-! `findMedianSortedArrays` of `median-of-two-sorted-arrays.c`. `int` arithmetic is modulo 2^32, as
on the machines that the program is built for; the `double` that is returned is exact. -/

namespace GoodCommand.Median

/-- The array `c` and the locals `j1` and `j2`. -/
structure Merging where
  c : List CInt
  j1 : ℤ
  j2 : ℤ
  deriving DecidableEq

/-- `c[i] = nums1[j1++];` -/
def take1 (nums1 : List CInt) (st : Merging) (i : ℕ) : Except OutOfBounds Merging := do
  let v ← Arr.get nums1 st.j1
  let c ← Arr.set st.c i v
  return { st with c := c, j1 := st.j1 + 1 }

/-- `c[i] = nums2[j2++];` -/
def take2 (nums2 : List CInt) (st : Merging) (i : ℕ) : Except OutOfBounds Merging := do
  let v ← Arr.get nums2 st.j2
  let c ← Arr.set st.c i v
  return { st with c := c, j2 := st.j2 + 1 }

def mergeBody (nums1 nums2 : List CInt) (st : Merging) (i : ℕ) : Except OutOfBounds Merging := do
  if st.j1 = nums1.length then take2 nums2 st i
  else if st.j2 = nums2.length then take1 nums1 st i
  else
    let v1 ← Arr.get nums1 st.j1
    let v2 ← Arr.get nums2 st.j2
    if v1 ≤ v2 then take1 nums1 st i else take2 nums2 st i

def merged (nums1 nums2 : List CInt) (s : CInt) : Except OutOfBounds (List CInt) := do
  let c ← Arr.malloc (fun _ => CInt.zero) s.val
  let st ← (List.range s.val.toNat).foldlM (mergeBody nums1 nums2) ⟨c, 0, 0⟩
  return st.c

def findMedianSortedArrays (nums1 nums2 : List CInt) : Except OutOfBounds ℚ := do
  let s := CInt.wrap (nums1.length + nums2.length)
  let c ← merged nums1 nums2 s
  if s.val.tmod 2 = 0 then
    let a ← Arr.get c (s.val.tdiv 2)
    let b ← Arr.get c (s.val.tdiv 2 - 1)
    return (CInt.wrap (a.val + b.val)).val / 2
  else
    let a ← Arr.get c (s.val.tdiv 2)
    return a.val

end GoodCommand.Median
