import GoodCommand.SumK.CountPairs

/-! For which numbers `sumk.c` counts right. Where the difference of two of them is no `int`,
`Compare` takes the larger one for the smaller one. -/

namespace GoodCommand.SumK
open Fuel

variable {c m input : List CInt} {x z k n : CInt} {q : Qsort CInt}

def DifferencesFit (input : List CInt) : Prop :=
  ∀ x ∈ input, ∀ y ∈ input, FitsInt (x.val - y.val)

instance (input : List CInt) : Decidable (DifferencesFit input) :=
  inferInstanceAs (Decidable (∀ x ∈ input, ∀ y ∈ input, FitsInt (x.val - y.val)))

theorem DifferencesFit.signAgrees (h : DifferencesFit input) :
    SignAgrees compare Subtype.val input :=
  (@signAgrees_wrap_sub_iff _ _ id (fun _ _ => rfl) input).mpr h

theorem DifferencesFit.sorted (h : DifferencesFit input) (q : Qsort CInt) :
    (q.sort compare input).Pairwise (· ≤ ·) := by
  have hsign := h.signAgrees
  have hperm := q.perm compare input hsign.consistent
  refine (q.sorted compare input hsign.consistent).imp_of_mem fun {x y} hx hy hle => ?_
  have hdiff := sign_nonpos_iff.mpr hle
  rw [hsign x (hperm.subset hx) y (hperm.subset hy), sign_nonpos_iff] at hdiff
  exact (sub_nonpos.mp hdiff : x.val ≤ y.val)

/-! ### Two numbers that are too far apart -/

theorem exists_far (h : ¬ DifferencesFit input) :
    ∃ x ∈ input, ∃ y ∈ input, intMax < x.val - y.val := by
  simp only [DifferencesFit, not_forall] at h
  obtain ⟨x, hx, y, hy, hfit⟩ := h
  rcases CInt.lt_or_lt_of_not_fits hfit with hlt | hlt
  · exact ⟨x, hx, y, hy, hlt⟩
  · refine ⟨y, hy, x, hx, ?_⟩
    unfold intMin at hlt
    unfold intMax
    omega

theorem compare_of_fits {x y : CInt} (h : FitsInt (x.val - y.val)) :
    (compare x y).val = x.val - y.val := CInt.wrap_of_fits h

theorem compare_below {x y : CInt} (h : x.val - y.val < intMin) : 0 < (compare x y).val := by
  have hx := x.property.1
  have hy := y.property.2
  unfold intMin intMax at *
  rw [compare, CInt.wrap_below h (by omega)]
  omega

theorem lt_far (hcons : Consistent compare input) {x y : CInt} (hx : x ∈ input) (hy : y ∈ input)
    (hfar : intMax < x.val - y.val) : y.val - x.val < intMin := by
  by_contra hge
  have heq : y.val - x.val = intMin := by
    unfold intMin intMax at *
    omega
  have hxy : (compare x y).val < 0 := by
    have hxmax := x.property.2
    have hymin := y.property.1
    unfold intMin intMax at *
    rw [compare, CInt.wrap_above hfar (by omega)]
    omega
  have hyx : (compare y x).val = intMin := by
    rw [compare_of_fits (by rw [heq]; decide), heq]
  have hpos := (hcons.antisymm x hx y hy).mp hxy
  rw [hyx] at hpos
  exact absurd hpos (by decide)

/-- Sorted with `Compare`, such numbers begin with one that is above the last. -/
theorem falling_of_far (hcons : Consistent compare input) (hfar : ¬ DifferencesFit input)
    (hsort : q.sort compare input = x :: (m ++ [z])) : z < x := by
  have hperm := q.perm compare input hcons
  have hsorted := q.sorted compare input hcons
  obtain ⟨p, hp, v, hv, hpv⟩ := exists_far hfar
  have hvp := lt_far hcons hp hv hpv
  rw [hsort] at hperm hsorted
  have hself : ∀ e : CInt, (compare e e).val = 0 := fun e => by
    rw [compare_of_fits (by rw [sub_self]; decide), sub_self]
  have hfirst : ∀ e ∈ input, (compare x e).val ≤ 0 := by
    intro e he
    rcases List.mem_cons.mp (hperm.symm.subset he) with rfl | he
    · exact (hself e).le
    · exact (List.pairwise_cons.mp hsorted).1 e he
  have hlast : ∀ e ∈ input, (compare e z).val ≤ 0 := by
    intro e he
    have hmem := hperm.symm.subset he
    rw [← List.cons_append] at hmem hsorted
    rcases List.mem_append.mp hmem with he | he
    · exact (List.pairwise_append.mp hsorted).2.2 e he z (by simp)
    · rw [List.mem_singleton.mp he]
      exact (hself z).le
  have hpmax := p.property.2
  have hvmin := v.property.1
  -- a negative first entry would be no larger than `v`, and too far below `p`
  have hx : 0 ≤ x.val := by
    by_contra hneg
    have hle := hfirst v hv
    have hxmin := x.property.1
    have hfit : FitsInt (x.val - v.val) := by
      unfold FitsInt intMin intMax at *
      omega
    rw [compare_of_fits hfit] at hle
    have hpos := compare_below (x := x) (y := p) (by omega)
    exact absurd (hfirst p hp) (not_le.mpr hpos)
  have hz : z.val < 0 := by
    by_contra hnonneg
    have hle := hlast p hp
    have hzmax := z.property.2
    have hfit : FitsInt (p.val - z.val) := by
      unfold FitsInt intMin intMax at *
      omega
    rw [compare_of_fits hfit] at hle
    have hpos := compare_below (x := v) (y := z) (by omega)
    exact absurd (hlast v hv) (not_le.mpr hpos)
  show z.val < x.val
  omega

/-! ### Wrong counts -/

theorem exists_least {l : List CInt} (h : l ≠ []) : ∃ w ∈ l, ∀ v ∈ l, w.val ≤ v.val := by
  obtain ⟨w, hw, hle⟩ := l.toFinset.exists_min_image (fun v => v.val)
    ((List.toFinset_nonempty_iff l).mpr h)
  exact ⟨w, List.mem_toFinset.mp hw, fun v hv => hle v (List.mem_toFinset.mpr hv)⟩

theorem exists_greatest {l : List CInt} (h : l ≠ []) : ∃ w ∈ l, ∀ v ∈ l, v.val ≤ w.val := by
  obtain ⟨w, hw, hle⟩ := l.toFinset.exists_max_image (fun v => v.val)
    ((List.toFinset_nonempty_iff l).mpr h)
  exact ⟨w, List.mem_toFinset.mp hw, fun v hv => hle v (List.mem_toFinset.mpr hv)⟩

/-- An array that begins above its end has an entry between them that is left out, or too many
pairs. -/
theorem exists_miscount (hn : n.val = (x :: (m ++ [z])).length) (hm : m ≠ []) (hlt : z < x)
    (hfit : (x :: (m ++ [z])).Pairwise fun x y => FitsInt (x.val + y.val))
    (hlen : (x :: (m ++ [z])).length ≤ maxn) (rest : List CInt) :
    ∃ k count, Returns (loop (countBody (x :: (m ++ [z]) ++ rest) k) (countStart n)) count ∧
      count ≠ pairCount (SumLe k) (x :: (m ++ [z])) := by
  have hlt' : z.val < x.val := hlt
  obtain ⟨hfirst, hrest⟩ := List.pairwise_cons.mp hfit
  have hend := (List.pairwise_append.mp hrest).2.2
  obtain ⟨w, hw, hleast⟩ := exists_least hm
  by_cases hwx : w.val < x.val
  · -- the sum of `w` and `z` is below all sums with `x`
    obtain ⟨k, hk⟩ : ∃ k : CInt, k.val = w.val + z.val := ⟨⟨_, hend w hw z (by simp)⟩, rfl⟩
    refine ⟨k, _, (settled_start hn).count_none (fun y hy => ?_) rest, ?_⟩
    · rw [wrap_le_iff (hfirst y hy), SumLe, hk]
      rcases List.mem_append.mp hy with hy | hy
      · have := hleast y hy
        omega
      · rw [List.mem_singleton.mp hy]
        omega
    · rw [pairCount_false, ← List.cons_append]
      exact (pairCount_pos (List.mem_cons_of_mem x hw) (show SumLe k w z from hk.ge)).ne
  · -- no sum with `z` is above that of `z` and the greatest entry, but the one with `x` is
    obtain ⟨v, hv, hgreatest⟩ := exists_greatest hm
    obtain ⟨k, hk⟩ : ∃ k : CInt, k.val = v.val + z.val := ⟨⟨_, hend v hv z (by simp)⟩, rfl⟩
    have hxv : x.val ≤ v.val := by
      have := hleast v hv
      omega
    have hall : ∀ y ∈ x :: m, CInt.wrap (y.val + z.val) ≤ k := by
      intro y hy
      rcases List.mem_cons.mp hy with rfl | hy
      · rw [wrap_le_iff (hfirst z (by simp)), SumLe, hk]
        omega
      · rw [wrap_le_iff (hend y hy z (by simp)), SumLe, hk]
        have := hgreatest y hy
        omega
    have hstart : Settled (x :: (m ++ [z])) (fun _ _ => True) (x :: m ++ [z]) (countStart n) :=
      settled_start hn
    refine ⟨k, _, hstart.count_all hlen hall rest, ?_⟩
    refine (pairCount_lt (List.mem_append_left _ hv) ?_).ne'
    rw [SumLe, hk]
    omega

theorem CountsPairs.count_eq (h : CountsPairs q n k input) (hn : n.val = input.length)
    (hmax : n.val ≤ maxn) {count : ℕ}
    (hret : Returns (loop (countBody (q.sort compare input ++
      List.replicate (maxn - input.length) CInt.zero) k) (countStart n)) count) :
    count = pairCount (SumLe k) input := by
  obtain ⟨-, -, -, hmain⟩ := h
  rw [main_eq hn hmax] at hmain
  exact (hret.unique hmain).trans (pairCount_eq_card (SumLe k) input).symm

theorem exists_miscount_of_far (q : Qsort CInt) (hn : n.val = input.length) (hmax : n.val ≤ maxn)
    (hfit : input.Pairwise fun x y => FitsInt (x.val + y.val)) (hcons : Consistent compare input)
    (hfar : ¬ DifferencesFit input) (hlen : 3 ≤ input.length) : ∃ k, ¬ CountsPairs q n k input := by
  have hperm := q.perm compare input hcons
  have hlength := hperm.length_eq
  obtain ⟨x, l, hl⟩ : ∃ x l, q.sort compare input = x :: l :=
    List.exists_cons_of_length_pos (by omega)
  obtain ⟨m, z, rfl⟩ : ∃ m z, l = m ++ [z] := by
    rcases List.eq_nil_or_concat l with rfl | ⟨m, z, rfl⟩
    · rw [hl, List.length_singleton] at hlength
      omega
    · exact ⟨m, z, List.concat_eq_append⟩
  have hm : m ≠ [] := by
    rintro rfl
    rw [hl] at hlength
    simp only [List.nil_append, List.length_cons, List.length_nil] at hlength
    omega
  have hfits : (q.sort compare input).Pairwise fun x y => FitsInt (x.val + y.val) :=
    (hperm.pairwise_iff fun hxy => by rwa [add_comm] at hxy).mpr hfit
  rw [hl] at hfits hlength
  obtain ⟨k, count, hret, hne⟩ := exists_miscount (n := n) (by rw [hlength, hn]) hm
    (falling_of_far hcons hfar hl) hfits (by rw [hlength]; omega)
    (List.replicate (maxn - input.length) CInt.zero)
  refine ⟨k, fun hcounts => hne ?_⟩
  rw [← hl] at hret ⊢
  rw [hcounts.count_eq hn hmax hret]
  exact (pairCount_perm (sumLe_comm k) hperm).symm

def garbage (input : List CInt) : List CInt :=
  CInt.wrap 1073741824 :: List.replicate (input.length - 1) (CInt.wrap 1073741823)

theorem exists_miscount_of_inconsistent (hn : n.val = input.length) (hmax : n.val ≤ maxn)
    (hcons : ¬ Consistent compare input) :
    ∃ q k, ¬ CountsPairs q n k input := by
  have hfar : ¬ DifferencesFit input := fun h => hcons h.signAgrees.consistent
  obtain ⟨x, hx, y, hy, hxy⟩ := exists_far hfar
  have hxmax := x.property.2
  have hxmin := x.property.1
  have hymin := y.property.1
  have hsum : FitsInt (x.val + y.val) := by
    unfold FitsInt intMin intMax at *
    omega
  obtain ⟨k, hk⟩ : ∃ k : CInt, k.val = x.val + y.val := ⟨⟨_, hsum⟩, rfl⟩
  have hsort : (Qsort.lawless garbage).sort compare input = garbage input :=
    Qsort.lawless_sort hcons
  have hpos : 0 < input.length := List.length_pos_of_mem hx
  have hnlen : n.val = (garbage input).length := by
    rw [garbage, List.length_cons, List.length_replicate]
    omega
  have hstart : Settled (garbage input) (fun _ _ => False) (CInt.wrap 1073741824 ::
      List.replicate (input.length - 1) (CInt.wrap 1073741823)) (countStart n) :=
    settled_start hnlen
  have hlt : k.val < intMax := by
    unfold FitsInt intMin intMax at *
    omega
  have hnone := hstart.count_none (fun v hv => by
    rw [List.eq_of_mem_replicate hv]
    exact not_le.mpr hlt) (List.replicate (maxn - input.length) CInt.zero)
  refine ⟨Qsort.lawless garbage, k, fun hcounts => ?_⟩
  rw [← hsort] at hnone
  have hzero := hcounts.count_eq hn hmax hnone
  -- but the sum of `x` and `y` is at most `k`
  have hperm : input.Perm (input.erase y ++ [y]) :=
    (List.perm_cons_erase hy).trans (List.perm_append_singleton y _).symm
  have hne : x ≠ y := by
    rintro rfl
    rw [sub_self] at hxy
    exact absurd hxy (by decide)
  have hpair := pairCount_pos ((List.mem_erase_of_ne hne).mpr hx) (show SumLe k x y from hk.ge)
  rw [pairCount_false, pairCount_perm (sumLe_comm k) hperm] at hzero
  omega

/-- `sumk.c` counts right, whatever its `k`, exactly when the differences of its numbers are
`int`s, or there are only two of them, in either order. -/
theorem main_counts_pairs_iff (hn : n.val = input.length) (hmax : n.val ≤ maxn)
    (hfit : input.Pairwise fun x y => FitsInt (x.val + y.val)) :
    (∀ q k, CountsPairs q n k input) ↔
      DifferencesFit input ∨ input.length ≤ 2 ∧ Consistent compare input := by
  constructor
  · intro hcounts
    by_contra hnot
    obtain ⟨hfar, hshort⟩ := not_or.mp hnot
    by_cases hcons : Consistent compare input
    · have hlen : ¬ input.length ≤ 2 := fun h => hshort ⟨h, hcons⟩
      obtain ⟨k, hk⟩ := exists_miscount_of_far (Qsort.insertion CInt) hn hmax hfit hcons hfar
        (by omega)
      exact hk (hcounts _ k)
    · obtain ⟨q, k, hk⟩ := exists_miscount_of_inconsistent hn hmax hcons
      exact hk (hcounts q k)
  · rintro (hdiff | ⟨hlen, hcons⟩) q k
    · exact countsPairs_of_between hn hmax hfit (q.perm _ _ hdiff.signAgrees.consistent)
        (between_of_sorted (hdiff.sorted q)) k
    · have hperm := q.perm compare input hcons
      exact countsPairs_of_between hn hmax hfit hperm
        (between_of_length (by rwa [hperm.length_eq])) k

theorem main_counts_pairs_iff_sample :
    (∀ q k, CountsPairs q (CInt.wrap 3) k [CInt.wrap 2, CInt.wrap 5, CInt.wrap 2]) ↔
      DifferencesFit [CInt.wrap 2, CInt.wrap 5, CInt.wrap 2] ∨
        3 ≤ 2 ∧ Consistent compare [CInt.wrap 2, CInt.wrap 5, CInt.wrap 2] :=
  main_counts_pairs_iff (by decide) (by decide) (by decide)

def farApart : List CInt := [CInt.wrap 1100000000, CInt.wrap 1000000000, CInt.wrap (-1200000000)]

/-- -1200000000 comes last, and three pairs are counted where there are two. -/
theorem main_counts_too_many :
    (farApart.Pairwise fun x y => FitsInt (x.val + y.val)) ∧ Consistent compare farApart ∧
      Returns (main (Qsort.insertion CInt) (CInt.wrap 3) CInt.zero farApart) 3 ∧
      ((Finset.univ : Finset (Fin 3 × Fin 3)).filter fun p =>
        p.1 < p.2 ∧ farApart[p.1].val + farApart[p.2].val ≤ 0).card = 2 ∧
      ¬ CountsPairs (Qsort.insertion CInt) (CInt.wrap 3) CInt.zero farApart := by
  have hcons : Consistent compare farApart := ⟨by decide, by decide⟩
  have hsort : (Qsort.insertion CInt).sort compare farApart =
      [CInt.wrap 1000000000, CInt.wrap 1100000000, CInt.wrap (-1200000000)] := by decide
  have hcard : ((Finset.univ : Finset (Fin 3 × Fin 3)).filter fun p =>
      p.1 < p.2 ∧ farApart[p.1].val + farApart[p.2].val ≤ 0).card = 2 := by decide
  have hret : Returns (main (Qsort.insertion CInt) (CInt.wrap 3) CInt.zero farApart) 3 := by
    rw [main_eq (by decide) (by decide), hsort]
    exact ⟨10, fun n hn => by obtain ⟨k, rfl⟩ : ∃ k, n = k + 10 := ⟨n - 10, by omega⟩; rfl⟩
  refine ⟨by decide, hcons, hret, hcard, ?_⟩
  rintro ⟨-, -, -, hmain⟩
  have heq := hret.unique hmain
  exact absurd (heq.trans hcard) (by decide)

end GoodCommand.SumK
