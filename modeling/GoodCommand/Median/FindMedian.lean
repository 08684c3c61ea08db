import GoodCommand.Library.Except
import GoodCommand.Library.Median
import GoodCommand.Median.Defs

/-! `findMedianSortedArrays` merges the arrays and returns the median of what it has merged, as long
as the number of elements is an `int`. -/

namespace GoodCommand.Median

variable {nums1 nums2 : List CInt}

def merge (nums1 nums2 : List CInt) : List CInt := nums1.merge nums2 fun a b => decide (a ≤ b)

theorem merge_perm : (merge nums1 nums2).Perm (nums1 ++ nums2) := List.merge_perm_append _

theorem merge_sorted (h1 : nums1.Pairwise (· ≤ ·)) (h2 : nums2.Pairwise (· ≤ ·)) :
    (merge nums1 nums2).Pairwise (· ≤ ·) := h1.merge h2

theorem length_merge : (merge nums1 nums2).length = nums1.length + nums2.length :=
  List.length_merge _ _ _

/-! ### The merge loop -/

structure Split (nums1 nums2 done r1 r2 : List CInt) (st : Merging) : Prop where
  left : ∃ p1, nums1 = p1 ++ r1 ∧ st.j1 = p1.length
  right : ∃ p2, nums2 = p2 ++ r2 ∧ st.j2 = p2.length
  c : ∃ rest, st.c = done ++ rest ∧ rest.length = r1.length + r2.length
  merge : done ++ merge r1 r2 = merge nums1 nums2

theorem Split.write {done r1 r2 : List CInt} {st : Merging} (h : Split nums1 nums2 done r1 r2 st)
    (v : CInt) {n : ℕ} (hn : r1.length + r2.length = n + 1) :
    ∃ suf, Arr.set st.c done.length v = .ok (done ++ v :: suf) ∧ suf.length = n := by
  obtain ⟨rest, hc, hrest⟩ := h.c
  have hne : rest ≠ [] := by
    rintro rfl
    simp only [List.length_nil] at hrest
    omega
  obtain ⟨u, suf, rfl⟩ := List.exists_cons_of_ne_nil hne
  rw [List.length_cons] at hrest
  exact ⟨suf, hc ▸ Arr.set_append_cons done suf u v rfl, by omega⟩

theorem read_next {nums p r : List CInt} {v : CInt} {j : ℤ} (h : nums = p ++ v :: r)
    (hj : j = p.length) :
    Arr.get nums j = .ok v ∧ nums = p ++ [v] ++ r ∧ j + 1 = (p ++ [v]).length := by
  refine ⟨h ▸ Arr.get_append_cons p r v hj, ?_, ?_⟩
  · rw [h, List.append_assoc]
    rfl
  · rw [List.length_append, hj]
    rfl

theorem Split.take1 {done r1 r2 : List CInt} {v : CInt} {st : Merging}
    (h : Split nums1 nums2 done (v :: r1) r2 st)
    (hv : Median.merge (v :: r1) r2 = v :: Median.merge r1 r2) :
    ∃ st', take1 nums1 st done.length = .ok st' ∧ Split nums1 nums2 (done ++ [v]) r1 r2 st' := by
  obtain ⟨p1, hp1, hj1⟩ := h.left
  obtain ⟨hget, hsplit, hnext⟩ := read_next hp1 hj1
  obtain ⟨suf, hset, hsuf⟩ := h.write v (n := r1.length + r2.length)
    (by rw [List.length_cons]; omega)
  refine ⟨⟨done ++ v :: suf, st.j1 + 1, st.j2⟩, ?_, ⟨p1 ++ [v], hsplit, hnext⟩, h.right,
    ⟨suf, by simp, hsuf⟩, ?_⟩
  · rw [Median.take1, hget, ok_bind, hset]
    rfl
  · rw [← h.merge, hv, List.append_assoc]
    rfl

theorem Split.take2 {done r1 r2 : List CInt} {v : CInt} {st : Merging}
    (h : Split nums1 nums2 done r1 (v :: r2) st)
    (hv : Median.merge r1 (v :: r2) = v :: Median.merge r1 r2) :
    ∃ st', take2 nums2 st done.length = .ok st' ∧ Split nums1 nums2 (done ++ [v]) r1 r2 st' := by
  obtain ⟨p2, hp2, hj2⟩ := h.right
  obtain ⟨hget, hsplit, hnext⟩ := read_next hp2 hj2
  obtain ⟨suf, hset, hsuf⟩ := h.write v (n := r1.length + r2.length)
    (by rw [List.length_cons]; omega)
  refine ⟨⟨done ++ v :: suf, st.j1, st.j2 + 1⟩, ?_, h.left, ⟨p2 ++ [v], hsplit, hnext⟩,
    ⟨suf, by simp, hsuf⟩, ?_⟩
  · rw [Median.take2, hget, ok_bind, hset]
    rfl
  · rw [← h.merge, hv, List.append_assoc]
    rfl

/-- Which array is read from is decided as in `merge`. -/
theorem Split.turn {done r1 r2 : List CInt} {st : Merging} (h : Split nums1 nums2 done r1 r2 st)
    (hleft : 0 < r1.length + r2.length) :
    ∃ v r1' r2' st', mergeBody nums1 nums2 st done.length = .ok st' ∧
      Split nums1 nums2 (done ++ [v]) r1' r2' st' := by
  obtain ⟨p1, hp1, hj1⟩ := h.left
  obtain ⟨p2, hp2, hj2⟩ := h.right
  have hlen1 := congrArg List.length hp1
  have hlen2 := congrArg List.length hp2
  rw [List.length_append] at hlen1 hlen2
  cases r1 with
  | nil =>
    -- the first array is read to its end
    have hend : st.j1 = nums1.length := by
      rw [hj1, hlen1]
      rfl
    cases r2 with
    | nil => exact absurd hleft (lt_irrefl 0)
    | cons v r2 =>
      obtain ⟨st', hrun, hst'⟩ := h.take2 (by simp [Median.merge])
      exact ⟨v, [], r2, st', by rw [mergeBody, if_pos hend, hrun], hst'⟩
  | cons v1 r1 =>
    have hmore1 : st.j1 ≠ nums1.length := by
      rw [List.length_cons] at hlen1
      omega
    cases r2 with
    | nil =>
      -- only the second one is
      have hend : st.j2 = nums2.length := by
        rw [hj2, hlen2]
        rfl
      obtain ⟨st', hrun, hst'⟩ := h.take1 (by simp [Median.merge])
      exact ⟨v1, r1, [], st', by rw [mergeBody, if_neg hmore1, if_pos hend, hrun], hst'⟩
    | cons v2 r2 =>
      have hmore2 : st.j2 ≠ nums2.length := by
        rw [List.length_cons] at hlen2
        omega
      have hget1 := (read_next hp1 hj1).1
      have hget2 := (read_next hp2 hj2).1
      have hbody : mergeBody nums1 nums2 st done.length =
          if v1 ≤ v2 then Median.take1 nums1 st done.length
          else Median.take2 nums2 st done.length := by
        rw [mergeBody, if_neg hmore1, if_neg hmore2, hget1, ok_bind, hget2, ok_bind]
      by_cases hle : v1 ≤ v2
      · obtain ⟨st', hrun, hst'⟩ := h.take1 (List.cons_merge_cons_pos _ _ _ (by simpa using hle))
        exact ⟨v1, r1, v2 :: r2, st', by rw [hbody, if_pos hle, hrun], hst'⟩
      · obtain ⟨st', hrun, hst'⟩ := h.take2 (List.cons_merge_cons_neg _ _ _ (by simpa using hle))
        exact ⟨v2, v1 :: r1, r2, st', by rw [hbody, if_neg hle, hrun], hst'⟩

theorem merged_eq {s : CInt} (hs : s.val = (nums1.length + nums2.length : ℕ)) :
    merged nums1 nums2 s = .ok (merge nums1 nums2) := by
  have hstart : Split nums1 nums2 [] nums1 nums2
      ⟨List.replicate (nums1.length + nums2.length) CInt.zero, 0, 0⟩ :=
    ⟨⟨[], rfl, rfl⟩, ⟨[], rfl, rfl⟩, ⟨_, rfl, List.length_replicate⟩, rfl⟩
  have hlen : ∀ {done r1 r2 st}, Split nums1 nums2 done r1 r2 st →
      done.length + (r1.length + r2.length) = nums1.length + nums2.length := fun h => by
    have := congrArg List.length h.merge
    rwa [List.length_append, length_merge, length_merge] at this
  obtain ⟨st, hrun, done, r1, r2, hst, hdone⟩ := foldlM_range_inv (f := mergeBody nums1 nums2)
    (n := nums1.length + nums2.length)
    (fun i st => ∃ done r1 r2, Split nums1 nums2 done r1 r2 st ∧ done.length = i)
    ⟨[], nums1, nums2, hstart, rfl⟩ (fun i st hi ⟨done, r1, r2, hst, hdone⟩ => by
      have := hlen hst
      obtain ⟨v, r1', r2', st', hbody, hst'⟩ := hst.turn (by omega)
      exact ⟨st', hdone ▸ hbody, _, r1', r2', hst', by rw [List.length_append, hdone]; rfl⟩)
  have hnil := hlen hst
  obtain rfl : r1 = [] := List.length_eq_zero_iff.mp (by omega)
  obtain rfl : r2 = [] := List.length_eq_zero_iff.mp (by omega)
  obtain ⟨rest, hc, hrest⟩ := hst.c
  obtain rfl : rest = [] := List.length_eq_zero_iff.mp hrest
  have hall := hst.merge
  have hend : merge [] ([] : List CInt) = [] := List.nil_merge []
  rw [hend] at hall
  rw [merged, Arr.malloc_const _ hs, ok_bind, hs, Int.toNat_natCast, hrun, ok_bind, hc, ← hall]
  rfl

/-! ### The result -/

theorem findMedian_odd {m : List CInt} {v : CInt} {s : CInt}
    (hs : CInt.wrap (nums1.length + nums2.length) = s) (hm : merged nums1 nums2 s = .ok m)
    (hlen : s.val = m.length) (hodd : Odd m.length) (hv : m[m.length / 2]? = some v) :
    findMedianSortedArrays nums1 nums2 = .ok v.val := by
  have hmod : ¬ (m.length : ℤ).tmod 2 = 0 := by
    have hrem : (m.length : ℤ).tmod 2 = (m.length % 2 : ℕ) := rfl
    rw [hrem, Nat.odd_iff.mp hodd]
    decide
  have hhalf : (m.length : ℤ).tdiv 2 = (m.length / 2 : ℕ) := rfl
  simp only [findMedianSortedArrays, hs, hm, ok_bind, hlen, hmod, if_false, hhalf, Arr.get_eq hv]
  rfl

theorem findMedian_even {m : List CInt} {a b : CInt} {s : CInt}
    (hs : CInt.wrap (nums1.length + nums2.length) = s) (hm : merged nums1 nums2 s = .ok m)
    (hlen : s.val = m.length) (hab : Middles m a b) :
    findMedianSortedArrays nums1 nums2 = .ok ((CInt.wrap (a.val + b.val)).val / 2) := by
  have hpos : m.length ≠ 0 := by
    intro h
    have := hab.upper
    rw [List.length_eq_zero_iff.mp h] at this
    cases this
  have hmod : (m.length : ℤ).tmod 2 = 0 := by
    have hrem : (m.length : ℤ).tmod 2 = (m.length % 2 : ℕ) := rfl
    rw [hrem, Nat.even_iff.mp hab.even]
    rfl
  have hhalf : (m.length : ℤ).tdiv 2 = (m.length / 2 : ℕ) := rfl
  have hlow : ((m.length / 2 : ℕ) : ℤ) - 1 = (m.length / 2 - 1 : ℕ) := by
    have := Nat.even_iff.mp hab.even
    omega
  simp only [findMedianSortedArrays, hs, hm, ok_bind, hlen, hmod, if_true, hhalf, hlow,
    Arr.get_eq hab.lower, Arr.get_eq hab.upper, add_comm b.val]
  rfl

theorem wrap_total (hsize : (nums1.length + nums2.length : ℤ) ≤ intMax) :
    (CInt.wrap (nums1.length + nums2.length)).val = (nums1.length + nums2.length : ℕ) := by
  rw [← Nat.cast_add] at hsize ⊢
  exact CInt.wrap_natCast hsize

theorem overflow_faults (h1 : (nums1.length : ℤ) ≤ intMax) (h2 : (nums2.length : ℤ) ≤ intMax)
    (hsize : intMax < (nums1.length + nums2.length : ℤ)) (r : ℚ) :
    findMedianSortedArrays nums1 nums2 ≠ .ok r := by
  have hneg : ¬ 0 ≤ (CInt.wrap (nums1.length + nums2.length)).val := by
    unfold intMax at h1 h2 hsize
    rw [CInt.wrap_val, Int.bmod_def]
    split <;> omega
  intro h
  obtain ⟨m, hm, -⟩ := bind_ok h
  obtain ⟨c, hc, -⟩ := bind_ok hm
  rw [Arr.malloc, if_neg hneg] at hc
  cases hc

/-- The loop merges the arrays without an access outside of them, and the result is the median. -/
theorem findMedianSortedArrays_isMedian (h1 : nums1.Pairwise (· ≤ ·)) (h2 : nums2.Pairwise (· ≤ ·))
    (hne : nums1 ++ nums2 ≠ []) (hsize : (nums1.length + nums2.length : ℤ) ≤ intMax)
    (hsum : ∀ m a b, m.Perm (nums1 ++ nums2) → m.Pairwise (· ≤ ·) → Middles m a b →
      FitsInt (a.val + b.val)) :
    ∃ m r, merged nums1 nums2 (CInt.wrap (nums1.length + nums2.length)) = .ok m ∧
      m.Perm (nums1 ++ nums2) ∧ m.Pairwise (· ≤ ·) ∧
      findMedianSortedArrays nums1 nums2 = .ok r ∧ IsMedian (fun v => (v.val : ℚ)) m r := by
  have hs := wrap_total hsize
  have hm := merged_eq hs
  have hperm : (merge nums1 nums2).Perm (nums1 ++ nums2) := merge_perm
  have hsorted := merge_sorted h1 h2
  have hlen := hs.trans (by rw [← length_merge])
  have hnil : merge nums1 nums2 ≠ [] := fun h => hne (List.nil_perm.mp (h ▸ hperm))
  rcases Nat.even_or_odd (merge nums1 nums2).length with heven | hodd
  · obtain ⟨a, b, hab⟩ := exists_middles hnil heven
    have heq := findMedian_even rfl hm hlen hab
    rw [CInt.wrap_of_fits (hsum _ a b hperm hsorted hab), Int.cast_add] at heq
    exact ⟨_, _, hm, hperm, hsorted, heq, .even hab⟩
  · obtain ⟨v, hv⟩ := exists_middle hnil
    exact ⟨_, _, hm, hperm, hsorted, findMedian_odd rfl hm hlen hodd hv, .odd hodd hv⟩

theorem findMedianSortedArrays_isMedian_sample :
    ∃ m r, merged [CInt.wrap 1, CInt.wrap 2] [CInt.wrap 3, CInt.wrap 4]
        (CInt.wrap ((2 : ℕ) + (2 : ℕ))) = .ok m ∧
      m.Perm ([CInt.wrap 1, CInt.wrap 2] ++ [CInt.wrap 3, CInt.wrap 4]) ∧ m.Pairwise (· ≤ ·) ∧
      findMedianSortedArrays [CInt.wrap 1, CInt.wrap 2] [CInt.wrap 3, CInt.wrap 4] = .ok r ∧
      IsMedian (fun v => (v.val : ℚ)) m r := by
  refine findMedianSortedArrays_isMedian (by decide) (by decide) (by simp) (by decide)
    fun m a b hperm _ hab => ?_
  have hsmall : ∀ v ∈ [CInt.wrap 1, CInt.wrap 2] ++ [CInt.wrap 3, CInt.wrap 4],
      1 ≤ v.val ∧ v.val ≤ 4 := by decide
  have ha := hsmall a (hperm.mem_iff.mp (List.mem_of_getElem? hab.lower))
  have hb := hsmall b (hperm.mem_iff.mp (List.mem_of_getElem? hab.upper))
  unfold FitsInt intMin intMax
  omega

/-- Two arrays of `2^30` zeros. -/
theorem large_total_faults :
    (∀ v ∈ List.replicate 1073741824 CInt.zero, v = CInt.zero) ∧
    ∀ r, findMedianSortedArrays (List.replicate 1073741824 CInt.zero)
      (List.replicate 1073741824 CInt.zero) ≠ .ok r := by
  refine ⟨fun v hv => List.eq_of_mem_replicate hv, overflow_faults ?_ ?_ ?_⟩
  all_goals
    rw [List.length_replicate]
    decide

/-! ### The bounds of the result -/

/-- The result lies between the middle elements of the array `c` that the loop fills. -/
def BetweenMiddles (nums1 nums2 : List CInt) : Prop :=
  ∃ c a b r, merged nums1 nums2 (CInt.wrap (nums1.length + nums2.length)) = .ok c ∧
    Middles c a b ∧ findMedianSortedArrays nums1 nums2 = .ok r ∧ (a.val : ℚ) ≤ r ∧ r ≤ b.val

theorem half_between_iff {a b : CInt} (hle : a ≤ b) :
    ((a.val : ℚ) ≤ (CInt.wrap (a.val + b.val)).val / 2 ∧
      ((CInt.wrap (a.val + b.val)).val : ℚ) / 2 ≤ b.val) ↔ FitsInt (a.val + b.val) := by
  have hle' : a.val ≤ b.val := hle
  rw [le_div_iff₀ (by norm_num), div_le_iff₀ (by norm_num)]
  norm_cast
  constructor
  · rintro ⟨hlow, hhigh⟩
    by_contra hfit
    have ha := a.property
    have hb := b.property
    unfold intMin intMax at ha hb
    rcases CInt.lt_or_lt_of_not_fits hfit with hlt | hlt
    · -- past `INT_MAX` half of the sum is below `a`
      rw [CInt.wrap_above hlt (by omega)] at hlow
      omega
    · rw [CInt.wrap_below hlt (by omega)] at hhigh
      omega
  · intro hfit
    rw [CInt.wrap_of_fits hfit]
    omega

theorem betweenMiddles_iff_fits (hsize : (nums1.length + nums2.length : ℤ) ≤ intMax) {a b : CInt}
    (hab : Middles (merge nums1 nums2) a b) (hle : a ≤ b) :
    BetweenMiddles nums1 nums2 ↔ FitsInt (a.val + b.val) := by
  have hs := wrap_total hsize
  have hm := merged_eq hs
  have hresult := findMedian_even rfl hm (hs.trans (by rw [← length_merge])) hab
  rw [← half_between_iff hle]
  constructor
  · rintro ⟨c, a', b', r, hc, hab', hr, hbounds⟩
    obtain rfl := Except.ok.inj (hm.symm.trans hc)
    obtain ⟨rfl, rfl⟩ := hab.unique hab'
    obtain rfl := Except.ok.inj (hresult.symm.trans hr)
    exact hbounds
  · exact fun hbounds => ⟨_, a, b, _, hm, hab, hresult, hbounds⟩

/-- The result lies between the middle elements exactly when their sum, and the number of all
elements, is an `int`. -/
theorem between_middles_iff (h1 : nums1.Pairwise (· ≤ ·)) (h2 : nums2.Pairwise (· ≤ ·))
    (hsize1 : (nums1.length : ℤ) ≤ intMax) (hsize2 : (nums2.length : ℤ) ≤ intMax)
    (hne : nums1 ++ nums2 ≠ []) (heven : Even (nums1 ++ nums2).length) :
    BetweenMiddles nums1 nums2 ↔ (nums1.length + nums2.length : ℤ) ≤ intMax ∧
      ∀ m a b, m.Perm (nums1 ++ nums2) → m.Pairwise (· ≤ ·) → Middles m a b →
        FitsInt (a.val + b.val) := by
  by_cases hsize : (nums1.length + nums2.length : ℤ) ≤ intMax
  · have hperm : (merge nums1 nums2).Perm (nums1 ++ nums2) := merge_perm
    have hsorted := merge_sorted h1 h2
    obtain ⟨a, b, hab⟩ := exists_middles (fun h => hne (List.nil_perm.mp (h ▸ hperm)))
      (hperm.length_eq ▸ heven)
    rw [betweenMiddles_iff_fits hsize hab (hab.le hsorted)]
    constructor
    · intro hfit
      refine ⟨hsize, fun m a' b' hperm' hsorted' hab' => ?_⟩
      -- a sorted permutation is the merged array
      obtain rfl := (hperm'.trans hperm.symm).eq_of_pairwise' hsorted' hsorted
      obtain ⟨rfl, rfl⟩ := hab.unique hab'
      exact hfit
    · exact fun h => h.2 _ a b hperm hsorted hab
  · constructor
    · rintro ⟨c, a, b, r, -, -, hr, -⟩
      exact absurd hr (overflow_faults hsize1 hsize2 (not_le.mp hsize) r)
    · exact fun h => absurd h.1 hsize

theorem between_middles_iff_sample :
    BetweenMiddles [CInt.wrap 1] [CInt.wrap 3] ↔ ((1 : ℕ) + (1 : ℕ) : ℤ) ≤ intMax ∧
      ∀ m a b, m.Perm ([CInt.wrap 1] ++ [CInt.wrap 3]) → m.Pairwise (· ≤ ·) → Middles m a b →
        FitsInt (a.val + b.val) :=
  between_middles_iff (by simp) (by simp) (by decide) (by decide) (by simp) (by decide)

/-- The two middle elements are `INT_MAX`, and the result is -1. -/
theorem large_middles_leave_bounds :
    findMedianSortedArrays [CInt.wrap 2147483647] [CInt.wrap 2147483647] = .ok (-1) ∧
      ¬ BetweenMiddles [CInt.wrap 2147483647] [CInt.wrap 2147483647] := by
  have hm : merged [CInt.wrap 2147483647] [CInt.wrap 2147483647] (CInt.wrap ((1 : ℕ) + (1 : ℕ))) =
      .ok [CInt.wrap 2147483647, CInt.wrap 2147483647] := by decide
  have hab : Middles [CInt.wrap 2147483647, CInt.wrap 2147483647] (CInt.wrap 2147483647)
      (CInt.wrap 2147483647) := ⟨by decide, rfl, rfl⟩
  have hsum : (CInt.wrap ((CInt.wrap 2147483647).val + (CInt.wrap 2147483647).val)).val = -2 := by
    decide
  have hresult : findMedianSortedArrays [CInt.wrap 2147483647] [CInt.wrap 2147483647] =
      .ok (-1) := by
    rw [findMedian_even rfl hm (by decide) hab, hsum]
    norm_num
  refine ⟨hresult, ?_⟩
  rintro ⟨c, a, b, r, hc, hab', hr, hlow, -⟩
  obtain rfl := Except.ok.inj (hm.symm.trans hc)
  obtain ⟨rfl, -⟩ := hab.unique hab'
  obtain rfl := Except.ok.inj (hresult.symm.trans hr)
  have hmax : (CInt.wrap 2147483647).val = 2147483647 := by decide
  rw [hmax] at hlow
  norm_num at hlow

end GoodCommand.Median
