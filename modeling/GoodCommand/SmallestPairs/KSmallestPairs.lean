import GoodCommand.Library.Except
import GoodCommand.SmallestPairs.Defs

/-! `kSmallestPairs` returns the pairs with the smallest sums, as long as their number is an
`int`. -/

namespace GoodCommand.SmallestPairs

variable {nums1 nums2 : List CInt}

abbrev IndexPair (nums1 nums2 : List CInt) := Fin nums1.length × Fin nums2.length

def pairSum (p : IndexPair nums1 nums2) : ℤ := (nums1.get p.1).val + (nums2.get p.2).val

def entry (p : IndexPair nums1 nums2) : List CInt := [nums1.get p.1, nums2.get p.2]

def cell (p : IndexPair nums1 nums2) : SumAll :=
  ⟨nums1.get p.1, nums2.get p.2, CInt.wrap (pairSum p)⟩

def indexPairs (nums1 nums2 : List CInt) : List (IndexPair nums1 nums2) :=
  List.finRange nums1.length ×ˢ List.finRange nums2.length

theorem mem_indexPairs (p : IndexPair nums1 nums2) : p ∈ indexPairs nums1 nums2 :=
  List.mem_product.mpr ⟨List.mem_finRange _, List.mem_finRange _⟩

theorem nodup_indexPairs : (indexPairs nums1 nums2).Nodup :=
  (List.nodup_finRange _).product (List.nodup_finRange _)

theorem length_indexPairs : (indexPairs nums1 nums2).length = nums1.length * nums2.length := by
  rw [indexPairs, List.length_product, List.length_finRange, List.length_finRange]

/-! ### The loop that stores the sums -/

theorem fill_eq (sa : List SumAll) : fill nums1 nums2 sa =
    (indexPairs nums1 nums2).foldlM (fun st p => fillBody nums1 nums2 p.1 st p.2)
      (sa, CInt.zero) := by
  have hrange : ∀ n, List.range n = (List.finRange n).map Fin.val := fun n =>
    List.map_coe_finRange_eq_range.symm
  show _ = ((List.finRange nums1.length).flatMap fun i =>
    (List.finRange nums2.length).map (Prod.mk i)).foldlM _ _
  simp only [fill, hrange, foldlM_flatMap, List.foldlM_map]

theorem fillBody_get (p : IndexPair nums1 nums2) (st : List SumAll × CInt) :
    fillBody nums1 nums2 p.1 st p.2 =
      Arr.set st.1 st.2 (cell p) >>= fun sa => .ok (sa, CInt.wrap (st.2.val + 1)) := by
  have h1 : Arr.get nums1 (p.1 : ℕ) = .ok (nums1.get p.1) := Arr.get_eq (by simp)
  have h2 : Arr.get nums2 (p.2 : ℕ) = .ok (nums2.get p.2) := Arr.get_eq (by simp)
  simp only [fillBody, h1, h2]
  rfl

theorem fill_ok {sa : List SumAll} (hsa : sa.length = nums1.length * nums2.length)
    (hsize : (nums1.length * nums2.length : ℤ) ≤ intMax) :
    fill nums1 nums2 sa = .ok ((indexPairs nums1 nums2).map cell,
      CInt.wrap (nums1.length * nums2.length)) := by
  rw [← Nat.cast_mul] at hsize ⊢
  have hidx : ∀ n : ℕ, n ≤ nums1.length * nums2.length → (CInt.wrap n).val = n := fun n hn =>
    CInt.wrap_natCast (by omega)
  have hstep : ∀ done p todo, indexPairs nums1 nums2 = done ++ p :: todo → ∀ u suf,
      done.length + 1 + suf.length = nums1.length * nums2.length →
      fillBody nums1 nums2 p.1 (done.map cell ++ u :: suf, CInt.wrap done.length) p.2 =
        .ok (done.map cell ++ cell p :: suf, CInt.wrap (done.length + 1 : ℕ)) := by
    intro done p todo _ u suf hlen
    have hm := hidx done.length (by omega)
    have hset : Arr.set (done.map cell ++ u :: suf) (CInt.wrap done.length) (cell p) =
        .ok (done.map cell ++ cell p :: suf) :=
      Arr.set_append_cons _ _ _ _ (by rw [hm, List.length_map])
    rw [fillBody_get, hset, hm]
    rfl
  rw [fill_eq]
  have hrun : (indexPairs nums1 nums2).foldlM (fun st p => fillBody nums1 nums2 p.1 st p.2)
      (sa, CInt.wrap (0 : ℕ)) = _ :=
    Arr.foldlM_writes (fun sa m => (sa, CInt.wrap m)) cell hstep hsa length_indexPairs.le
  rwa [List.drop_eq_nil_of_le (by rw [hsa, length_indexPairs]), List.append_nil,
    length_indexPairs] at hrun

/-! ### Too many pairs -/

theorem fill_m {ps : List (IndexPair nums1 nums2)} {st st' : List SumAll × CInt}
    (h : ps.foldlM (fun st p => fillBody nums1 nums2 p.1 st p.2) st = .ok st') :
    st'.2 = CInt.wrap (st.2.val + ps.length) := by
  induction ps generalizing st with
  | nil =>
    cases h
    simp [CInt.wrap_self]
  | cons p ps ih =>
    obtain ⟨st₁, hfirst, hrest⟩ := foldlM_cons_ok h
    rw [fillBody_get] at hfirst
    obtain ⟨sa, -, hst⟩ := bind_ok hfirst
    cases hst
    rw [ih hrest, CInt.wrap_add, List.length_cons]
    push_cast
    ring_nf

/-- `m` overflows before it is the index of a write. -/
theorem fill_le {sa : List SumAll} {st : List SumAll × CInt}
    (h : fill nums1 nums2 sa = .ok st) :
    ((nums1.length * nums2.length : ℕ) : ℤ) ≤ intMax + 1 := by
  by_contra hlt
  obtain ⟨N, hN⟩ : ∃ N : ℕ, (N : ℤ) = intMax + 1 := ⟨2147483648, rfl⟩
  have hlen : N < (indexPairs nums1 nums2).length := by
    rw [length_indexPairs]
    omega
  rw [fill_eq, ← List.take_append_drop N (indexPairs nums1 nums2), List.foldlM_append] at h
  obtain ⟨st₁, hfirst, hrest⟩ := bind_ok h
  have hm := fill_m hfirst
  rw [List.length_take, min_eq_left hlen.le, hN] at hm
  -- after `2^31` writes `m` is negative
  have hneg : st₁.2.val < 0 := by
    rw [hm]
    exact (by decide : (CInt.wrap (CInt.zero.val + (intMax + 1))).val < 0)
  rw [List.drop_eq_getElem_cons hlen] at hrest
  obtain ⟨st₂, hbody, -⟩ := foldlM_cons_ok hrest
  rw [fillBody_get, Arr.set_of_neg hneg] at hbody
  cases hbody

theorem overflow_faults (q : Qsort SumAll) (junk : ℕ → SumAll) (junkSizes : ℕ → ℤ) (k : CInt)
    (hsize : intMax < nums1.length * nums2.length) (r : Result) :
    kSmallestPairs q junk junkSizes nums1 nums2 k ≠ .ok r := by
  intro h
  obtain ⟨sa, -, h⟩ := bind_ok h
  obtain ⟨st, hfill, h⟩ := bind_ok h
  obtain ⟨sa', hsort, -⟩ := bind_ok h
  have hle := fill_le hfill
  push_cast at hle
  have heq : (nums1.length * nums2.length : ℤ) = intMax + 1 := by omega
  rw [heq, Qsort.run, if_neg (fun hpos => absurd hpos.1 (by decide))] at hsort
  cases hsort

/-! ### The run -/

theorem exists_sorted (q : Qsort SumAll)
    (hsums : ∀ p : IndexPair nums1 nums2, FitsInt (pairSum p))
    (hdiffs : ∀ p p' : IndexPair nums1 nums2, FitsInt (pairSum p - pairSum p')) :
    ∃ ps : List (IndexPair nums1 nums2), ps.Perm (indexPairs nums1 nums2) ∧
      q.sort cpmSum ((indexPairs nums1 nums2).map cell) = ps.map cell ∧
      ps.Pairwise fun p p' => pairSum p ≤ pairSum p' := by
  have hcmp : ∀ p p' : IndexPair nums1 nums2,
      (cpmSum (cell p) (cell p')).val = pairSum p - pairSum p' := by
    intro p p'
    show (CInt.wrap ((CInt.wrap (pairSum p)).val - (CInt.wrap (pairSum p')).val)).val = _
    rw [CInt.wrap_of_fits (hsums p), CInt.wrap_of_fits (hsums p'), CInt.wrap_of_fits (hdiffs p p')]
  have hcons : Consistent cpmSum ((indexPairs nums1 nums2).map cell) := by
    refine Consistent.of_key (fun s => s.sum.val) fun a ha b hb => ?_
    obtain ⟨p, -, rfl⟩ := List.mem_map.mp ha
    obtain ⟨p', -, rfl⟩ := List.mem_map.mp hb
    show _ = (CInt.wrap (pairSum p)).val - (CInt.wrap (pairSum p')).val
    rw [hcmp, CInt.wrap_of_fits (hsums p), CInt.wrap_of_fits (hsums p')]
  obtain ⟨ps, hperm, hsort, hpair⟩ := Qsort.exists_reorder (q := q) hcons
  refine ⟨ps, hperm, hsort, hpair.imp fun {p p'} hle => ?_⟩
  rw [hcmp] at hle
  omega

theorem copy_ok {ps : List (IndexPair nums1 nums2)} {n k : ℕ} (hn : n ≤ ps.length) (hk : n ≤ k) :
    (List.range n).foldlM (pairBody (ps.map cell)) (List.replicate k none) =
      .ok ((ps.take n).map (fun p => some (entry p)) ++ List.replicate (k - n) none) := by
  have hstep : ∀ pre v post, (ps.take n).map (fun p => some (entry p)) = pre ++ v :: post →
      ∀ u suf, pairBody (ps.map cell) (pre ++ u :: suf) pre.length = .ok (pre ++ v :: suf) := by
    intro pre v post hsplit u suf
    obtain ⟨ps₁, rest, htake, rfl, hrest⟩ := List.map_eq_append_iff.mp hsplit
    obtain ⟨p, ps₂, rfl, rfl, -⟩ := List.map_eq_cons_iff.mp hrest
    have hget : Arr.get (ps.map cell) (ps₁.map fun p => some (entry p)).length =
        .ok (cell p) := by
      rw [← List.take_append_drop n ps, htake, List.append_assoc, List.map_append]
      exact Arr.get_append_cons _ _ _ (by simp)
    simp only [pairBody, hget]
    exact Arr.set_append_cons _ _ _ _ rfl
  have hrun := Arr.foldlM_range_writes hstep (n := n) (by simp [hn])
    (a := List.replicate k none) (by simp [hk])
  rwa [List.drop_replicate] at hrun

theorem sizes_ok {n : ℕ} {sizes : List ℤ} (hn : sizes.length = n) :
    (List.range n).foldlM (fun sizes (i : ℕ) => Arr.set sizes i 2) sizes =
      .ok (List.replicate n 2) := by
  have hstep : ∀ pre v post, List.replicate n (2 : ℤ) = pre ++ v :: post → ∀ u suf,
      Arr.set (pre ++ u :: suf) (pre.length : ℕ) 2 = .ok (pre ++ v :: suf) := by
    intro pre v post hsplit u suf
    have hmem : v ∈ List.replicate n (2 : ℤ) := by
      rw [hsplit]
      simp
    rw [List.eq_of_mem_replicate hmem]
    exact Arr.set_append_cons _ _ _ _ rfl
  have hrun : (List.range n).foldlM (fun sizes (i : ℕ) => Arr.set sizes i 2) sizes = _ :=
    Arr.foldlM_range_writes hstep (by simp) hn.ge
  rwa [List.drop_eq_nil_of_le hn.le, List.append_nil] at hrun

theorem kSmallestPairs_eq (q : Qsort SumAll) (junk : ℕ → SumAll) (junkSizes : ℕ → ℤ)
    {ps : List (IndexPair nums1 nums2)} (hlen : ps.length = nums1.length * nums2.length)
    (hsort : q.sort cpmSum ((indexPairs nums1 nums2).map cell) = ps.map cell)
    (hfit : (ps.length : ℤ) ≤ intMax) {k : CInt} {n N : ℕ} (hn : k.val = n)
    (hN : N = min n ps.length) :
    ∃ m : CInt, m.val = N ∧ kSmallestPairs q junk junkSizes nums1 nums2 k = .ok
      ⟨(ps.take N).map (fun p => some (entry p)) ++ List.replicate (n - N) none, m,
        List.replicate N 2⟩ := by
  have hprod : (nums1.length * nums2.length : ℤ) = ps.length := by
    rw [hlen, Nat.cast_mul]
  obtain ⟨m, hm⟩ : ∃ m, m = CInt.wrap (nums1.length * nums2.length) := ⟨_, rfl⟩
  have hmval : m.val = ps.length := by
    rw [hm, hprod]
    exact CInt.wrap_natCast hfit
  have hmin : (min k m).val = N := by
    rw [CInt.min_val, hn, hmval, hN, Nat.cast_min]
  have hsa : Arr.malloc junk (nums1.length * nums2.length) = _ :=
    Arr.malloc_natCast junk (hprod.trans (by rw [hlen]))
  have hfill : fill nums1 nums2 ((List.range (nums1.length * nums2.length)).map junk) = _ :=
    fill_ok (by simp) (hprod ▸ hfit)
  have hqsort := q.run_length ((indexPairs nums1 nums2).map cell) cpmSum
    (hmval.trans (by rw [List.length_map, length_indexPairs, hlen]))
  have hre := Arr.malloc_const (none : Option (List CInt)) hn
  have hcopy := copy_ok (hN.trans_le (min_le_right _ _)) (hN.trans_le (min_le_left _ _))
  have hsizes := Arr.malloc_natCast junkSizes (rfl : (N : ℤ) = N)
  have hfillSizes : (List.range N).foldlM _ ((List.range N).map junkSizes) = _ := sizes_ok (by simp)
  refine ⟨min k m, hmin, ?_⟩
  simp only [kSmallestPairs, hsa, hfill, ← hm, hqsort, hsort, hre, hmin, hcopy, ← min_def_lt,
    hsizes, hfillSizes, ok_bind, Int.toNat_natCast]
  rfl

/-- The pairs with the smallest sums are returned, as many as asked for or as there are. -/
theorem kSmallestPairs_smallest (q : Qsort SumAll) (junk : ℕ → SumAll) (junkSizes : ℕ → ℤ)
    (hsize : (nums1.length * nums2.length : ℤ) ≤ intMax)
    (hsums : ∀ p : IndexPair nums1 nums2, FitsInt (pairSum p))
    (hdiffs : ∀ p p' : IndexPair nums1 nums2, FitsInt (pairSum p - pairSum p'))
    {k : CInt} (hk : 0 ≤ k.val) :
    ∃ (r : Result) (ps : List (IndexPair nums1 nums2)),
      kSmallestPairs q junk junkSizes nums1 nums2 k = .ok r ∧
      r.returnSize.val = min k.val (nums1.length * nums2.length) ∧
      r.returnSize.val = ps.length ∧ Smallest pairSum ps ∧
      r.re = ps.map (fun p => some (entry p)) ++ List.replicate (k.val.toNat - ps.length) none ∧
      r.returnColumnSizes = List.replicate ps.length 2 := by
  obtain ⟨ps, hperm, hsort, hsorted⟩ := exists_sorted q hsums hdiffs
  have hlen : ps.length = nums1.length * nums2.length := by
    rw [hperm.length_eq, length_indexPairs]
  have hprod : (nums1.length * nums2.length : ℤ) = ps.length := by
    rw [hlen, Nat.cast_mul]
  obtain ⟨n, hn⟩ : ∃ n : ℕ, k.val = n := ⟨k.val.toNat, by omega⟩
  obtain ⟨N, hN⟩ : ∃ N, N = min n ps.length := ⟨_, rfl⟩
  obtain ⟨m, hm, hrun⟩ := kSmallestPairs_eq q junk junkSizes hlen hsort (hprod ▸ hsize) hn hN
  have hselect : Smallest pairSum (ps.take N) := Smallest.take
    (fun p => hperm.mem_iff.mpr (mem_indexPairs p)) (hperm.nodup_iff.mpr nodup_indexPairs) hsorted N
  have htake : (ps.take N).length = N := by
    rw [List.length_take, hN]
    omega
  refine ⟨_, ps.take N, hrun, ?_, ?_, hselect, ?_, ?_⟩
  · rw [hm, hN, hprod, hn, Nat.cast_min]
  · rw [hm, htake]
  · rw [htake, hn, Int.toNat_natCast]
  · rw [htake]

theorem kSmallestPairs_smallest_sample : ∃ (r : Result)
    (ps : List (IndexPair [CInt.wrap 1, CInt.wrap 7, CInt.wrap 11]
      [CInt.wrap 2, CInt.wrap 4, CInt.wrap 6])),
    kSmallestPairs (.insertion _) (fun _ => ⟨.zero, .zero, .zero⟩) (fun _ => 0)
      [CInt.wrap 1, CInt.wrap 7, CInt.wrap 11] [CInt.wrap 2, CInt.wrap 4, CInt.wrap 6]
      (CInt.wrap 2) = .ok r ∧
    r.returnSize.val = min (CInt.wrap 2).val (3 * 3) ∧
    r.returnSize.val = ps.length ∧ Smallest pairSum ps ∧
    r.re = ps.map (fun p => some (entry p)) ++
      List.replicate ((CInt.wrap 2).val.toNat - ps.length) none ∧
    r.returnColumnSizes = List.replicate ps.length 2 :=
  kSmallestPairs_smallest _ _ _ (by decide) (by decide) (by decide) (by decide)

/-- `65536 * 65536` pairs. -/
theorem large_product_faults :
    (∀ p : IndexPair (List.replicate 65536 CInt.zero) (List.replicate 65536 CInt.zero),
      pairSum p = 0) ∧
    ∀ r, kSmallestPairs (.insertion _) (fun _ => ⟨.zero, .zero, .zero⟩) (fun _ => 0)
      (List.replicate 65536 CInt.zero) (List.replicate 65536 CInt.zero) CInt.zero ≠ .ok r := by
  refine ⟨fun p => ?_, overflow_faults _ _ _ _ ?_⟩
  · rw [pairSum, List.get_eq_getElem, List.get_eq_getElem, List.getElem_replicate,
      List.getElem_replicate]
    rfl
  · rw [List.length_replicate]
    decide

end GoodCommand.SmallestPairs
