import GoodCommand.FrequencySort.Defs
import GoodCommand.Library.Blocks
import GoodCommand.Library.Except

/-! `frequencySort` returns the characters of its argument in blocks, the most frequent ones
first. -/

namespace GoodCommand.FrequencySort
open Fuel

variable {T : CharType} {s : CharString T}

theorem max_toNat (T : CharType) : (T.max.toNat : ℤ) = T.max := by
  cases T <;> rfl

theorem exists_index {c : ℤ} (h : 1 ≤ c ∧ c < T.max) :
    ∃ k : ℕ, c = k ∧ k ≠ 0 ∧ k < T.max.toNat := by
  have hmax := max_toNat T
  exact ⟨c.toNat, by omega, by omega, by omega⟩

/-! ### Counting -/

def entry (l : List ℤ) (k : ℕ) : Elemnt :=
  ⟨if l.count (k : ℤ) = 0 then 0 else k, CInt.wrap (l.count (k : ℤ))⟩

def counted (T : CharType) (l : List ℤ) : List Elemnt := (List.range T.max.toNat).map (entry l)

theorem length_counted (T : CharType) (l : List ℤ) : (counted T l).length = T.max.toNat := by
  rw [counted, List.length_map, List.length_range]

theorem counted_getElem? {k : ℕ} (hk : k < T.max.toNat) (l : List ℤ) :
    (counted T l)[k]? = some (entry l k) := by
  rw [counted, List.getElem?_map, List.getElem?_range hk]
  rfl

theorem counted_nil (T : CharType) :
    counted T [] = List.replicate T.max.toNat ⟨0, CInt.zero⟩ := by
  have hzero : CInt.wrap 0 = CInt.zero := CInt.wrap_self CInt.zero
  have hentry : entry [] = fun _ => ⟨0, CInt.zero⟩ := by
    funext k
    simp [entry, hzero]
  rw [counted, hentry, List.map_const', List.length_range]

theorem counted_concat (l : List ℤ) {k : ℕ} :
    (counted T l).set k ⟨k, CInt.wrap ((entry l k).frequency.val + 1)⟩ =
      counted T (l ++ [(k : ℤ)]) := by
  have hk : (⟨k, CInt.wrap ((entry l k).frequency.val + 1)⟩ : Elemnt) =
      entry (l ++ [(k : ℤ)]) k := by
    simp [entry, CInt.wrap_add]
  rw [hk]
  refine List.ext_getElem (by simp [length_counted]) fun j _ _ => ?_
  rw [List.getElem_set]
  split
  · rename_i h
    subst h
    simp [counted]
  · rename_i h
    have hne : (k : ℤ) ≠ j := by exact_mod_cast h
    simp [counted, entry, hne]

theorem count_iterates {pre mid suf : List ℤ} {i : CInt} (hs : s.chars = pre ++ mid ++ suf)
    (hi : i.val = pre.length) (hchars : ∀ c ∈ mid, 1 ≤ c ∧ c < T.max)
    (hfit : ((pre ++ mid).length : ℤ) ≤ intMax) :
    ∃ k i', Iterates (countBody s) k (i, counted T pre) (i', counted T (pre ++ mid)) ∧
      i'.val = (pre ++ mid).length := by
  induction mid generalizing pre i with
  | nil => exact ⟨0, i, by simpa using .zero _, by simpa using hi⟩
  | cons c mid ih =>
    obtain ⟨k, rfl, hne, hk⟩ := exists_index (hchars c (by simp))
    have hchar := CharString.charAt_of_append (show s.chars = pre ++ (k : ℤ) :: (mid ++ suf) by
      simpa using hs) hi
    have hget := Arr.get_eq (counted_getElem? hk pre)
    have hset := Arr.set_eq (a := counted T pre) (by rwa [length_counted])
      (⟨k, CInt.wrap ((entry pre k).frequency.val + 1)⟩ : Elemnt)
    rw [counted_concat] at hset
    rw [List.append_cons] at hs hfit ⊢
    have hlt : (pre.length : ℤ) < intMax := by
      simp only [List.length_append, List.length_singleton] at hfit
      push_cast at hfit
      omega
    have hnext : (CInt.wrap (i.val + 1)).val = (pre ++ [(k : ℤ)]).length := by
      rw [CInt.wrap_of_fits ⟨by unfold intMin; omega, by omega⟩, hi, List.length_append]
      rfl
    obtain ⟨n, i', hiter, hi'⟩ := ih hs hnext (fun d hd => hchars d (List.mem_cons_of_mem _ hd))
      hfit
    refine ⟨n + 1, i', hiter.head (returns_of_eq ?_), hi'⟩
    simp [countBody, hchar, hne, hget, hset]

theorem returns_count (hlen : s.len ≤ intMax) (hchars : ∀ c ∈ s.chars, 1 ≤ c ∧ c < T.max) :
    ∃ i, Returns (loop (countBody s) (CInt.zero, counted T [])) (i, counted T s.chars) ∧
      i.val = s.len := by
  obtain ⟨k, i, hiter, hi⟩ := count_iterates
    (show s.chars = [] ++ s.chars ++ [] from (List.append_nil _).symm)
    (show CInt.zero.val = ([] : List ℤ).length from rfl) hchars hlen
  rw [List.nil_append] at hiter hi
  have hend : s.charAt i = .ok 0 := by
    rw [hi]
    exact s.charAt_len
  refine ⟨i, hiter.returns_loop (returns_loop_exit (returns_of_eq ?_)), hi⟩
  simp [countBody, hend]

/-! ### Sorting -/

theorem frequency_val {l : List ℤ} (hlen : (l.length : ℤ) ≤ intMax) (k : ℕ) :
    (entry l k).frequency.val = l.count (k : ℤ) := by
  have hle := List.count_le_length (a := (k : ℤ)) (l := l)
  exact CInt.wrap_natCast (by omega)

theorem exists_sorted (q : Qsort Elemnt) (T : CharType) {l : List ℤ}
    (hlen : (l.length : ℤ) ≤ intMax) :
    ∃ ks : List ℕ, ks.Perm (List.range T.max.toNat) ∧
      q.sort compare (counted T l) = ks.map (entry l) ∧
      ks.Pairwise fun (a b : ℕ) => l.count (b : ℤ) ≤ l.count (a : ℤ) := by
  have hcmp : ∀ a b, (compare (entry l a) (entry l b)).val =
      (l.count (b : ℤ) : ℤ) - l.count (a : ℤ) := by
    intro a b
    have ha := List.count_le_length (a := (a : ℤ)) (l := l)
    have hb := List.count_le_length (a := (b : ℤ)) (l := l)
    rw [compare, frequency_val hlen, frequency_val hlen]
    exact CInt.wrap_of_fits ⟨by unfold intMin; unfold intMax at hlen; omega, by omega⟩
  have hcons : Consistent compare ((List.range T.max.toNat).map (entry l)) := by
    refine Consistent.of_key (fun el => -el.frequency.val) fun x hx y hy => ?_
    obtain ⟨a, -, rfl⟩ := List.mem_map.mp hx
    obtain ⟨b, -, rfl⟩ := List.mem_map.mp hy
    rw [hcmp, frequency_val hlen, frequency_val hlen]
    omega
  obtain ⟨ks, hperm, hsort, hpair⟩ := Qsort.exists_reorder (q := q) hcons
  refine ⟨ks, hperm, hsort, hpair.imp fun {a b} hle => ?_⟩
  rw [hcmp] at hle
  omega

/-! ### Emitting -/

theorem returns_write {pool : List Elemnt} {i : ℕ} {el : Elemnt} (hel : pool[i]? = some el) :
    ∀ (n : ℕ) (out zs : List ℤ), n ≤ zs.length →
      Returns (loop (writeBody pool i) ⟨n, out.length, out ++ zs⟩)
        (((out ++ List.replicate n el.e).length : ℤ),
          out ++ List.replicate n el.e ++ zs.drop n) := by
  intro n
  induction n with
  | zero =>
    intro out zs _
    refine returns_loop_exit (returns_of_eq ?_)
    simp [writeBody]
  | succ n ih =>
    intro out zs hlen
    cases zs with
    | nil => exact absurd hlen (by simp)
    | cons z zs =>
      have hset := Arr.set_append_cons out zs z el.e (j := (out.length : ℤ)) rfl
      have hnext := ih (out ++ [el.e]) zs (by simpa using hlen)
      have hne : ((n + 1 : ℕ) : ℤ) ≠ 0 := by omega
      have hfre : ((n + 1 : ℕ) : ℤ) - 1 = n := by omega
      have hbody : writeBody pool i ⟨(n + 1 : ℕ), out.length, out ++ z :: zs⟩ =
          pure (.next ⟨n, ((out ++ [el.e]).length : ℕ), out ++ [el.e] ++ zs⟩) := by
        rw [writeBody, if_pos hne, hfre]
        simp only [Arr.get_eq hel, hset, Prog.liftM_eq_lift, Prog.lift_ok, Prog.pure_bind,
          List.append_assoc, List.singleton_append, List.length_append, List.length_singleton,
          Nat.cast_add, Nat.cast_one]
      have hblock : out ++ [el.e] ++ List.replicate n el.e =
          out ++ List.replicate (n + 1) el.e := by
        rw [List.append_assoc, List.singleton_append, ← List.replicate_succ]
      rw [hblock] at hnext
      exact returns_loop_next (returns_of_eq hbody) hnext

def used (l : List ℤ) (ks : List ℕ) : List ℤ :=
  (ks.takeWhile fun k : ℕ => 0 < l.count (k : ℤ)).map fun k : ℕ => (k : ℤ)

theorem used_cons_pos {l : List ℤ} {k : ℕ} (h : 0 < l.count (k : ℤ)) (ks : List ℕ) :
    used l (k :: ks) = (k : ℤ) :: used l ks := by
  simp [used, List.count_pos_iff.mp h]

theorem used_cons_neg {l : List ℤ} {k : ℕ} (h : ¬ 0 < l.count (k : ℤ)) (ks : List ℕ) :
    used l (k :: ks) = [] := by
  rw [used, List.takeWhile_cons_of_neg (by simpa using h), List.map_nil]

theorem returns_emit {pool : List Elemnt} {l : List ℤ} (hnul : 0 ∉ l)
    (hlen : (l.length : ℤ) ≤ intMax) (hsize : pool.length = T.max.toNat) (ks : List ℕ) :
    ∀ (done : List ℕ) (out zs : List ℤ), pool = (done ++ ks).map (entry l) →
      (blocks l (used l ks)).length ≤ zs.length →
      Returns (loop (emitBody T pool) ⟨done.length, out.length, out ++ zs⟩)
        (out ++ blocks l (used l ks) ++ zs.drop (blocks l (used l ks)).length) := by
  induction ks with
  | nil =>
    intro done out zs hpool _
    have hend : ¬ (done.length : ℤ) < T.max := by
      rw [hpool, List.append_nil, List.length_map] at hsize
      rw [hsize, max_toNat]
      exact lt_irrefl _
    refine returns_loop_exit (returns_of_eq ?_)
    rw [emitBody, if_neg hend]
    simp [used, blocks]
  | cons k ks ih =>
    intro done out zs hpool hroom
    have hget : pool[done.length]? = some (entry l k) := by simp [hpool]
    have hlt : (done.length : ℤ) < T.max := by
      have hin := (List.getElem?_eq_some_iff.mp hget).1
      have := max_toNat T
      omega
    by_cases hpos : 0 < l.count (k : ℤ)
    · have hmem : (k : ℤ) ∈ l := List.count_pos_iff.mp hpos
      have he : (entry l k).e = k := if_neg hpos.ne'
      have hek : (entry l k).e > 0 := by
        have hne : (k : ℤ) ≠ 0 := fun h => hnul (h ▸ hmem)
        rw [he]
        omega
      rw [used_cons_pos hpos, blocks_cons, List.length_append, List.length_replicate] at hroom ⊢
      have hwrite := returns_write hget (l.count (k : ℤ)) out zs (by omega)
      have hnext := ih (done ++ [k]) (out ++ List.replicate (l.count (k : ℤ)) (k : ℤ))
        (zs.drop (l.count (k : ℤ))) (by rw [hpool, List.append_assoc]; rfl)
        (by rw [List.length_drop]; omega)
      rw [List.drop_drop, List.length_append, List.length_singleton] at hnext
      rw [← List.append_assoc out]
      refine returns_loop_next ?_ hnext
      rw [he, ← frequency_val hlen] at hwrite
      rw [emitBody, if_pos hlt]
      simp only [Arr.get_eq hget, Prog.liftM_eq_lift, Prog.lift_ok, Prog.pure_bind, if_pos hek]
      exact hwrite.bind (returns_of_eq (by simp))
    · -- a character that does not occur has the `e` of the zeroed memory
      have he : ¬ (entry l k).e > 0 := by
        rw [entry, if_pos (by omega)]
        exact lt_irrefl _
      rw [used_cons_neg hpos]
      refine returns_loop_exit (returns_of_eq ?_)
      rw [emitBody, if_pos hlt]
      simp [Arr.get_eq hget, he, blocks]

/-! ### The run -/

theorem mem_used {l : List ℤ} {ks : List ℕ}
    (hsorted : ks.Pairwise fun (a b : ℕ) => l.count (b : ℤ) ≤ l.count (a : ℤ))
    {k : ℕ} (hk : k ∈ ks) (hl : (k : ℤ) ∈ l) : (k : ℤ) ∈ used l ks := by
  rw [used, takeWhile_eq_filter (f := fun k : ℕ => l.count (k : ℤ)) hsorted]
  exact List.mem_map.mpr ⟨k, List.mem_filter.mpr ⟨hk, by simpa [List.count_pos_iff] using hl⟩, rfl⟩

theorem nodup_used {l : List ℤ} {ks : List ℕ} (h : ks.Nodup) : (used l ks).Nodup :=
  (h.map fun a b heq => by exact_mod_cast heq).sublist ((List.takeWhile_sublist _).map _)

theorem counts_used {l : List ℤ} {ks : List ℕ}
    (hsorted : ks.Pairwise fun (a b : ℕ) => l.count (b : ℤ) ≤ l.count (a : ℤ)) :
    (used l ks).Pairwise fun a b => l.count b ≤ l.count a :=
  (List.pairwise_map.mpr hsorted).sublist ((List.takeWhile_sublist _).map _)

theorem blocks_used {ks : List ℕ} (hchars : ∀ c ∈ s.chars, 1 ≤ c ∧ c < T.max)
    (hperm : ks.Perm (List.range T.max.toNat))
    (hsorted : ks.Pairwise fun (a b : ℕ) => s.chars.count (b : ℤ) ≤ s.chars.count (a : ℤ)) :
    (blocks s.chars (used s.chars ks)).Perm s.chars := by
  refine blocks_perm (nodup_used (hperm.nodup_iff.mpr List.nodup_range)) fun c hc => ?_
  obtain ⟨k, rfl, -, hk⟩ := exists_index (hchars c hc)
  exact mem_used hsorted (hperm.mem_iff.mpr (List.mem_range.mpr hk)) hc

theorem returns_frequencySort (q : Qsort Elemnt) (hlen : s.len < intMax)
    (hchars : ∀ c ∈ s.chars, 1 ≤ c ∧ c < T.max) {ks : List ℕ}
    (hsort : q.sort compare (counted T s.chars) = ks.map (entry s.chars))
    (hsize : ks.length = T.max.toNat)
    (hblocks : (blocks s.chars (used s.chars ks)).Perm s.chars) :
    Returns (frequencySort q s) (blocks s.chars (used s.chars ks) ++ [0]) := by
  have hmax := (max_toNat T).symm
  have hpool := Arr.malloc_const (⟨0, CInt.zero⟩ : Elemnt) hmax
  rw [← counted_nil] at hpool
  have hqsort := q.run_length (counted T s.chars) compare (length_counted T s.chars ▸ hmax)
  obtain ⟨i, hcount, hi⟩ := returns_count hlen.le hchars
  have hroom : (CInt.wrap (i.val + 1)).val = (s.chars.length + 1 : ℕ) := by
    rw [hi, CInt.wrap_of_fits ⟨by unfold intMin CharString.len; omega, by omega⟩]
    rfl
  have hret := Arr.malloc_const (0 : ℤ) hroom
  have hemit := returns_emit s.noNul hlen.le (T := T) (by rw [hsort, List.length_map, hsize]) ks
    [] [] (List.replicate (s.chars.length + 1) 0) hsort (by rw [hblocks.length_eq]; simp)
  rw [hblocks.length_eq, List.drop_replicate, Nat.add_sub_cancel_left, List.nil_append,
    List.nil_append] at hemit
  rw [frequencySort, hpool]
  simp only [Prog.liftM_eq_lift, Prog.lift_ok, Prog.pure_bind]
  refine hcount.bind ?_
  simp only [hqsort, hret, Prog.lift_ok, Prog.pure_bind]
  exact hemit

/-- The blocks of equal characters are returned in the order of their lengths. Behind them stands
the NUL, in the last of the `strlen(s)+1` bytes. -/
theorem frequencySort_blocks (q : Qsort Elemnt) {s : CharString T} (hlen : s.len < intMax)
    (hchars : ∀ c ∈ s.chars, 1 ≤ c ∧ c < T.max) :
    ∃ t cs, Returns (frequencySort q s) (t ++ [0]) ∧ 0 ∉ t ∧ t.Perm s.chars ∧
      t = blocks s.chars cs ∧ cs.Nodup ∧
      cs.Pairwise fun a b => s.chars.count b ≤ s.chars.count a := by
  obtain ⟨ks, hperm, hsort, hpair⟩ := exists_sorted q T (show (s.chars.length : ℤ) ≤ _ from hlen.le)
  have hblocks := blocks_used hchars hperm hpair
  have hsize : ks.length = T.max.toNat := by rw [hperm.length_eq, List.length_range]
  exact ⟨_, used s.chars ks, returns_frequencySort q hlen hchars hsort hsize hblocks,
    fun h => s.noNul (hblocks.mem_iff.mp h), hblocks, rfl,
    nodup_used (hperm.nodup_iff.mpr List.nodup_range), counts_used hpair⟩

theorem frequencySort_blocks_sample :
    ∃ t cs, Returns (frequencySort (.insertion _) (⟨[116, 114, 101, 101], by decide, by decide⟩ :
        CharString .signed)) (t ++ [0]) ∧ 0 ∉ t ∧ t.Perm [116, 114, 101, 101] ∧
      t = blocks [116, 114, 101, 101] cs ∧ cs.Nodup ∧
      cs.Pairwise fun a b => [116, 114, 101, 101].count b ≤ [116, 114, 101, 101].count a :=
  frequencySort_blocks _ (by decide) (by decide)

end GoodCommand.FrequencySort
