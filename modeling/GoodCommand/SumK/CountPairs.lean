import GoodCommand.Library.Except
import GoodCommand.Library.Pairs
import GoodCommand.Library.Steady
import GoodCommand.SumK.Defs

/-! The loop of `sumk.c` over `i` and `j` counts the pairs whose sum is at most `k`. -/

namespace GoodCommand.SumK
open Fuel

def SumLe (k : CInt) (x y : CInt) : Prop := x.val + y.val ≤ k.val

instance (k : CInt) : DecidableRel (SumLe k) := fun x y =>
  inferInstanceAs (Decidable (x.val + y.val ≤ k.val))

theorem sumLe_comm (k x y : CInt) : SumLe k x y ↔ SumLe k y x := by
  rw [SumLe, SumLe, add_comm]

/-! ### Reading and sorting -/

theorem sorted_eq (q : Qsort CInt) {n : CInt} {input : List CInt} (hn : n.val = input.length)
    (hmax : input.length ≤ maxn) :
    sorted q n input =
      .ok (q.sort compare input ++ List.replicate (maxn - input.length) CInt.zero) := by
  have hread : (List.range n.val.toNat).foldlM (scanBody input) (List.replicate maxn CInt.zero) =
      .ok (input ++ (List.replicate maxn CInt.zero).drop n.val.toNat) := by
    refine Arr.foldlM_range_writes (fun pre v post hinput u suf => ?_) (by omega)
      (by rw [List.length_replicate]; omega)
    have hnext : input[pre.length]? = some v := by simp [hinput]
    rw [scanBody, hnext]
    exact Arr.set_append_cons pre suf u v rfl
  have htoNat : n.val.toNat = input.length := by omega
  have hlen : 0 ≤ n.val ∧
      n.val ≤ (input ++ List.replicate (maxn - input.length) CInt.zero).length := by
    rw [List.length_append]
    omega
  rw [sorted, hread, ok_bind, List.drop_replicate, htoNat, Qsort.run, if_pos hlen, htoNat,
    List.take_left, List.drop_left]

/-! ### The loop -/

/-- The pairs with an entry outside of `mid`, which lies between `i` and `j`, are counted. -/
structure Settled (c : List CInt) (R : CInt → CInt → Prop) [DecidableRel R] (mid : List CInt)
    (st : Pointers) : Prop where
  place : ∃ done dropped, c = done ++ mid ++ dropped ∧ st.i.val = done.length
  j_eq : st.j.val = st.i.val + mid.length - 1
  count_eq : st.count + pairCount R mid = pairCount R c

variable {c mid l : List CInt} {R : CInt → CInt → Prop} [DecidableRel R] {k : CInt} {st : Pointers}

theorem Settled.bounds (h : Settled c R mid st) :
    0 ≤ st.i.val ∧ st.i.val ≤ c.length ∧ -1 ≤ st.j.val ∧ st.j.val < c.length := by
  obtain ⟨done, dropped, rfl, hi⟩ := h.place
  have hj := h.j_eq
  simp only [List.length_append]
  omega

theorem settled_start {n : CInt} (hn : n.val = c.length) : Settled c R c (countStart n) where
  place := ⟨[], [], by simp, rfl⟩
  j_eq := by
    show (CInt.wrap (n.val - 1)).val = (0 : ℤ) + c.length - 1
    rw [CInt.wrap_pred (by omega)]
    omega
  count_eq := Nat.zero_add _

theorem Settled.count_first {x : CInt} (h : Settled c R (x :: mid) st) (hlen : c.length ≤ maxn)
    (hall : ∀ y ∈ mid, R x y) (hne : mid ≠ []) :
    Settled c R mid { st with
      count := addCount st.count (CInt.wrap (st.j.val - st.i.val))
      i := CInt.wrap (st.i.val + 1) } := by
  obtain ⟨done, dropped, hc, hi⟩ := h.place
  have hj := h.j_eq
  have hcount := h.count_eq
  have hpos := List.length_pos_of_ne_nil hne
  rw [List.length_cons] at hj
  rw [pairCount_first hall] at hcount
  have hlt : st.i < st.j := show st.i.val < st.j.val by omega
  have hdiff : (CInt.wrap (st.j.val - st.i.val)).val = mid.length := by
    have hjint := st.j.property
    have hiint := st.i.property
    unfold intMin intMax at hjint
    rw [CInt.wrap_of_fits ⟨by unfold intMin; omega, by unfold intMax; omega⟩]
    omega
  refine ⟨⟨done ++ [x], dropped, by simpa using hc, ?_⟩, ?_, ?_⟩
  · show (CInt.wrap (st.i.val + 1)).val = _
    rw [CInt.wrap_succ hlt, hi, List.length_append, List.length_singleton, Nat.cast_add]
    rfl
  · show st.j.val = (CInt.wrap (st.i.val + 1)).val + mid.length - 1
    rw [CInt.wrap_succ hlt]
    omega
  · -- there are far less pairs than an `unsigned long long` counts
    have hle := pairCount_le R c
    have hsquare := Nat.mul_le_mul hlen hlen
    unfold maxn at hsquare
    show addCount st.count (CInt.wrap (st.j.val - st.i.val)) + pairCount R mid = _
    rw [addCount, hdiff]
    omega

theorem Settled.drop_last {y : CInt} (h : Settled c R (mid ++ [y]) st)
    (hnone : ∀ x ∈ mid, ¬ R x y) (hne : mid ≠ []) :
    Settled c R mid { st with j := CInt.wrap (st.j.val - 1) } := by
  obtain ⟨done, dropped, hc, hi⟩ := h.place
  have hj := h.j_eq
  have hcount := h.count_eq
  have hpos := List.length_pos_of_ne_nil hne
  rw [List.length_append, List.length_singleton] at hj
  rw [pairCount_last hnone] at hcount
  refine ⟨⟨done, y :: dropped, by simpa using hc, hi⟩, ?_, hcount⟩
  show (CInt.wrap (st.j.val - 1)).val = st.i.val + mid.length - 1
  rw [CInt.wrap_pred (by omega)]
  omega

theorem countBody_next {a : List CInt} {x y : CInt} (hlt : st.i < st.j)
    (hx : Arr.get a st.i.val = .ok x) (hy : Arr.get a st.j.val = .ok y) :
    countBody a k st = pure (.next (if CInt.wrap (x.val + y.val) ≤ k then { st with
      count := addCount st.count (CInt.wrap (st.j.val - st.i.val))
      i := CInt.wrap (st.i.val + 1) } else { st with j := CInt.wrap (st.j.val - 1) })) := by
  simp only [countBody, hlt, if_true, hx, hy, Prog.liftM_eq_lift, Prog.lift_ok, Prog.pure_bind,
    ← not_le (b := k), ite_not]
  split_ifs <;> rfl

theorem wrap_le_iff {x y : CInt} (hfit : FitsInt (x.val + y.val)) :
    CInt.wrap (x.val + y.val) ≤ k ↔ SumLe k x y := by
  show (CInt.wrap (x.val + y.val)).val ≤ k.val ↔ x.val + y.val ≤ k.val
  rw [CInt.wrap_of_fits hfit]

theorem Settled.lt_iff (h : Settled c R mid st) : st.i < st.j ↔ 2 ≤ mid.length := by
  have hj := h.j_eq
  show st.i.val < st.j.val ↔ 2 ≤ mid.length
  omega

theorem Settled.reads {x y : CInt} (h : Settled c R (x :: (l ++ [y])) st) (rest : List CInt) :
    Arr.get (c ++ rest) st.i.val = .ok x ∧ Arr.get (c ++ rest) st.j.val = .ok y := by
  obtain ⟨done, dropped, hc, hi⟩ := h.place
  have hj := h.j_eq
  have hj' : st.j.val = (done ++ x :: l).length := by
    simp only [List.length_cons, List.length_append, List.length_nil] at hj ⊢
    omega
  rw [hc]
  constructor
  · simpa using Arr.get_append_cons done (l ++ y :: (dropped ++ rest)) x hi
  · simpa using Arr.get_append_cons (done ++ x :: l) (dropped ++ rest) y hj'

theorem Settled.exit (h : Settled c R mid st) (hmid : mid.length ≤ 1) (rest : List CInt) :
    Returns (countBody (c ++ rest) k st) (.exit (pairCount R c)) := by
  have hge : ¬ st.i < st.j := by
    rw [h.lt_iff]
    omega
  have hnone : pairCount R mid = 0 := by
    rcases mid with _ | ⟨x, _ | ⟨y, l⟩⟩
    · rfl
    · rfl
    · simp only [List.length_cons] at hmid
      omega
  rw [← h.count_eq, hnone, add_zero, countBody, if_neg hge]
  exact returns_pure _

variable {x y : CInt}

theorem Settled.small (h : Settled c R (x :: (l ++ [y])) st) (hlen : c.length ≤ maxn)
    (hall : ∀ z ∈ l ++ [y], R x z) (hle : CInt.wrap (x.val + y.val) ≤ k) (rest : List CInt) :
    ∃ st', Returns (countBody (c ++ rest) k st) (.next st') ∧ Settled c R (l ++ [y]) st' := by
  obtain ⟨hx, hy⟩ := h.reads rest
  have hbody := countBody_next (k := k) (h.lt_iff.mpr (by simp)) hx hy
  rw [if_pos hle] at hbody
  exact ⟨_, returns_of_eq hbody, h.count_first hlen hall (by simp)⟩

theorem Settled.large (h : Settled c R (x :: (l ++ [y])) st) (hnone : ∀ z ∈ x :: l, ¬ R z y)
    (hlt : ¬ CInt.wrap (x.val + y.val) ≤ k) (rest : List CInt) :
    ∃ st', Returns (countBody (c ++ rest) k st) (.next st') ∧ Settled c R (x :: l) st' := by
  obtain ⟨hx, hy⟩ := h.reads rest
  have hbody := countBody_next (k := k) (h.lt_iff.mpr (by simp)) hx hy
  rw [if_neg hlt] at hbody
  rw [← List.cons_append] at h
  exact ⟨_, returns_of_eq hbody, h.drop_last hnone (by simp)⟩

/-! ### The whole loop -/

def Between (c : List CInt) : Prop := ∀ x m y, x :: (m ++ [y]) <:+: c → ∀ z ∈ m, x ≤ z ∧ z ≤ y

theorem between_of_sorted (h : c.Pairwise (· ≤ ·)) : Between c := by
  intro x m y hinfix z hz
  have hsub := h.sublist hinfix.sublist
  rw [← List.cons_append] at hsub
  obtain ⟨hfront, -, hlast⟩ := List.pairwise_append.mp hsub
  exact ⟨(List.pairwise_cons.mp hfront).1 z hz, hlast z (by simp [hz]) y (by simp)⟩

theorem between_of_length (h : c.length ≤ 2) : Between c := by
  intro x m y hinfix z hz
  have hlen := hinfix.length_le
  have hpos := List.length_pos_of_mem hz
  simp only [List.length_cons, List.length_append, List.length_nil] at hlen
  omega

theorem Settled.turn (h : Settled c (SumLe k) mid st) (hbetween : Between c)
    (hfit : c.Pairwise fun x y => FitsInt (x.val + y.val)) (hlen : c.length ≤ maxn)
    (rest : List CInt) :
    Returns (countBody (c ++ rest) k st) (.exit (pairCount (SumLe k) c)) ∨
      ∃ mid' st', Returns (countBody (c ++ rest) k st) (.next st') ∧
        Settled c (SumLe k) mid' st' ∧ mid'.length < mid.length := by
  by_cases hmid : mid.length ≤ 1
  · exact .inl (h.exit hmid rest)
  right
  obtain ⟨x, l, rfl⟩ : ∃ x l, mid = x :: l := List.exists_cons_of_length_pos (by omega)
  obtain ⟨m, y, rfl⟩ : ∃ m y, l = m ++ [y] := by
    rcases List.eq_nil_or_concat l with rfl | ⟨m, y, rfl⟩
    · simp at hmid
    · exact ⟨m, y, List.concat_eq_append⟩
  obtain ⟨done, dropped, hc, -⟩ := h.place
  have hinfix : x :: (m ++ [y]) <:+: c := ⟨done, dropped, hc.symm⟩
  have hends := hbetween x m y hinfix
  have hiff := wrap_le_iff (k := k)
    ((List.pairwise_cons.mp (hfit.sublist hinfix.sublist)).1 y (by simp))
  by_cases hsum : SumLe k x y
  · have hall : ∀ z ∈ m ++ [y], SumLe k x z := by
      intro z hz
      have hzy : z.val ≤ y.val := by
        rcases List.mem_append.mp hz with hz | hz
        · exact (hends z hz).2
        · rw [List.mem_singleton.mp hz]
      exact (add_le_add_right hzy x.val).trans hsum
    obtain ⟨st', hret, h'⟩ := h.small hlen hall (hiff.mpr hsum) rest
    exact ⟨m ++ [y], st', hret, h', by simp⟩
  · have hnone : ∀ z ∈ x :: m, ¬ SumLe k z y := by
      intro z hz hzy
      have hxz : x.val ≤ z.val := by
        rcases List.mem_cons.mp hz with rfl | hz
        · exact le_rfl
        · exact (hends z hz).1
      exact hsum ((add_le_add_left hxz y.val).trans hzy)
    obtain ⟨st', hret, h'⟩ := h.large hnone (mt hiff.mp hsum) rest
    exact ⟨x :: m, st', hret, h', by simp⟩

theorem countLoop_returns (h : Settled c (SumLe k) mid st) (hbetween : Between c)
    (hfit : c.Pairwise fun x y => FitsInt (x.val + y.val)) (hlen : c.length ≤ maxn)
    (rest : List CInt) :
    Returns (loop (countBody (c ++ rest) k) st) (pairCount (SumLe k) c) := by
  induction hm : mid.length using Nat.strong_induction_on generalizing mid st with
  | _ m ih =>
    rcases h.turn hbetween hfit hlen rest with hexit | ⟨mid', st', hnext, h', hlt⟩
    · exact returns_loop_exit hexit
    · exact returns_loop_next hnext (ih _ (hm ▸ hlt) h' rfl)

theorem Settled.iterates (h : Settled c (SumLe k) mid st) (hbetween : Between c)
    (hfit : c.Pairwise fun x y => FitsInt (x.val + y.val)) (hlen : c.length ≤ maxn)
    {rest : List CInt} {m : ℕ} {st' : Pointers}
    (hrun : Iterates (countBody (c ++ rest) k) m st st') :
    ∃ mid', Settled c (SumLe k) mid' st' := by
  refine hrun.keeps (I := fun st => ∃ mid, Settled c (SumLe k) mid st) ?_ ⟨mid, h⟩
  rintro s t ⟨mid, hs⟩ hnext
  rcases hs.turn hbetween hfit hlen rest with hexit | ⟨mid', st', hnext', h', -⟩
  · cases hexit.unique hnext
  · cases hnext'.unique hnext
    exact ⟨mid', h'⟩

theorem Settled.count_all (h : Settled c (fun _ _ => True) (l ++ [y]) st) (hlen : c.length ≤ maxn)
    (hle : ∀ x ∈ l, CInt.wrap (x.val + y.val) ≤ k) (rest : List CInt) :
    Returns (loop (countBody (c ++ rest) k) st) (pairCount (fun _ _ => True) c) := by
  induction l generalizing st with
  | nil => exact returns_loop_exit (h.exit (by simp) rest)
  | cons x l ih =>
    obtain ⟨st', hret, h'⟩ := h.small hlen (fun _ _ => trivial) (hle x (by simp)) rest
    exact returns_loop_next hret (ih h' fun z hz => hle z (List.mem_cons_of_mem _ hz))

theorem Settled.count_none (h : Settled c (fun _ _ => False) (x :: l) st)
    (hlt : ∀ y ∈ l, ¬ CInt.wrap (x.val + y.val) ≤ k) (rest : List CInt) :
    Returns (loop (countBody (c ++ rest) k) st) (pairCount (fun _ _ => False) c) := by
  induction l using List.reverseRecOn generalizing st with
  | nil => exact returns_loop_exit (h.exit (by simp) rest)
  | append_singleton l y ih =>
    obtain ⟨st', hret, h'⟩ := h.large (fun _ _ => not_false) (hlt y (by simp)) rest
    exact returns_loop_next hret (ih h' fun z hz => hlt z (List.mem_append_left _ hz))

/-! ### The program -/

/-- `i` and `j` stay in bounds, and `count` is the number of index pairs whose sum is at most
`k`. -/
def CountsPairs (q : Qsort CInt) (n k : CInt) (input : List CInt) : Prop :=
  ∃ a, sorted q n input = .ok a ∧
    (∀ m st, Iterates (countBody a k) m (countStart n) st →
      0 ≤ st.i.val ∧ st.i.val ≤ n.val ∧ -1 ≤ st.j.val ∧ st.j.val < n.val) ∧
    Returns (main q n k input)
      ((Finset.univ : Finset (Fin input.length × Fin input.length)).filter fun p =>
        p.1 < p.2 ∧ input[p.1].val + input[p.2].val ≤ k.val).card

variable {q : Qsort CInt} {n : CInt} {input : List CInt}

theorem main_eq (hn : n.val = input.length) (hmax : n.val ≤ maxn) (k : CInt) :
    main q n k input = loop (countBody (q.sort compare input ++
      List.replicate (maxn - input.length) CInt.zero) k) (countStart n) := by
  rw [main, sorted_eq q hn (by omega)]
  rfl

theorem countsPairs_of_between (hn : n.val = input.length) (hmax : n.val ≤ maxn)
    (hfit : input.Pairwise fun x y => FitsInt (x.val + y.val))
    (hperm : (q.sort compare input).Perm input) (hbetween : Between (q.sort compare input))
    (k : CInt) : CountsPairs q n k input := by
  have hlen : (q.sort compare input).length ≤ maxn := by
    rw [hperm.length_eq]
    omega
  have hfits : (q.sort compare input).Pairwise fun x y => FitsInt (x.val + y.val) :=
    (hperm.pairwise_iff fun hxy => by rwa [add_comm] at hxy).mpr hfit
  have hnsort : n.val = (q.sort compare input).length := by rw [hn, hperm.length_eq]
  have hstart : Settled (q.sort compare input) (SumLe k) _ (countStart n) := settled_start hnsort
  refine ⟨_, sorted_eq q hn (by omega), fun m st hrun => ?_, ?_⟩
  · obtain ⟨mid, hmid⟩ := hstart.iterates hbetween hfits hlen hrun
    have hbounds := hmid.bounds
    omega
  · have hcount : pairCount (SumLe k) (q.sort compare input) = _ :=
      (pairCount_perm (sumLe_comm k) hperm).trans (pairCount_eq_card (SumLe k) input)
    have hrun := countLoop_returns hstart hbetween hfits hlen
      (List.replicate (maxn - input.length) CInt.zero)
    rw [hcount] at hrun
    rw [main_eq hn hmax]
    exact hrun

end GoodCommand.SumK
