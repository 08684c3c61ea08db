import GoodCommand.Library.Distinct
import GoodCommand.LongestSubstring.Defs

/-! The window of `lengthOfLongestSubstring` is at every turn the longest run without a repetition
that ends there, as long as the index of its end is an `int`. `map` only tells which characters have
come, not where. -/

namespace GoodCommand.LongestSubstring
open Fuel

variable {T : CharType} {s : CharString T}

theorem returns_find {done w suf : List ℤ} {c : ℤ} (hs : s.chars = done ++ w ++ c :: suf)
    {i stop : CInt} (hi : i.val = done.length) (hstop : stop.val = (done ++ w).length) :
    ∃ j, Returns (loop (findBody s stop) i) j ∧ j.val = i.val + (w.idxOf c : ℕ) := by
  have hc : s.charAt stop = .ok c := CharString.charAt_of_append hs hstop
  induction w generalizing done i with
  | nil =>
    have hend : ¬ i < stop := not_lt.mpr <| show stop.val ≤ i.val by simp [hi, hstop]
    refine ⟨i, returns_loop_exit (returns_of_eq ?_), by simp⟩
    simp [findBody, hend]
  | cons b w ih =>
    have hlt : i < stop := by
      show i.val < stop.val
      simp only [hi, hstop, List.length_append, List.length_cons]
      omega
    have hb : s.charAt i = .ok b :=
      CharString.charAt_of_append (show s.chars = done ++ b :: (w ++ c :: suf) by simpa using hs) hi
    by_cases hbc : b = c
    · subst hbc
      refine ⟨i, returns_loop_exit (returns_of_eq ?_), by simp⟩
      simp [findBody, hlt, hb, hc]
    · have hbody : findBody s stop i = pure (.next (CInt.wrap (i.val + 1))) := by
        simp [findBody, hlt, hb, hc, hbc]
      have hsucc := CInt.wrap_succ hlt
      obtain ⟨j, hret, hj⟩ := ih (show s.chars = done ++ [b] ++ w ++ c :: suf by simpa using hs)
        (show (CInt.wrap (i.val + 1)).val = (done ++ [b]).length by rw [hsucc, hi]; simp)
        (by simpa using hstop)
      refine ⟨j, returns_loop_next (returns_of_eq hbody) hret, ?_⟩
      rw [hj, hsucc, List.idxOf_cons_ne _ hbc]
      push_cast
      ring

structure Marked (st : Scan) (pre w : List ℤ) : Prop where
  window : LastRun pre w
  start : st.start.val + w.length = pre.length
  size : st.map.length = 256
  seen : ∀ c : ℕ, c < 256 → st.map[c]? = some (if (c : ℤ) ∈ pre then 1 else 0)

structure Scanned (st : Scan) (pre w : List ℤ) : Prop extends Marked st pre w where
  stop : st.stop.val = pre.length
  longest : ∃ n : ℕ, st.maxlength.val = n ∧ LongestRun pre n

theorem scanned_init : Scanned ⟨.zero, .zero, .zero, List.replicate 256 0⟩ [] [] where
  window := lastRun_nil
  start := rfl
  size := List.length_replicate
  seen c hc := by rw [List.getElem?_replicate, if_pos hc]; rfl
  stop := rfl
  longest := ⟨0, rfl, longestRun_nil⟩

/-! ### One turn -/

theorem Scanned.start_eq {st : Scan} {done w : List ℤ} (h : Scanned st (done ++ w) w) :
    st.start.val = done.length := by
  have hsum := h.start
  rw [List.length_append] at hsum
  push_cast at hsum
  omega

/-- A character that came before, but perhaps not in the window: `map` does not tell, so the window
is searched. -/
theorem Scanned.mark_seen {st : Scan} {pre w suf : List ℤ} {c : ℕ} (h : Scanned st pre w)
    (hs : s.chars = pre ++ (c : ℤ) :: suf) (hc : c < 256) (hmem : (c : ℤ) ∈ pre) :
    ∃ st' w', Returns (scanBody s st) (.next (advance st')) ∧ Marked st' (pre ++ [(c : ℤ)]) w' ∧
      st'.stop = st.stop ∧ st'.maxlength = st.maxlength := by
  have hchar : s.charAt st.stop = .ok (c : ℤ) := CharString.charAt_of_append hs h.stop
  have hne : 0 ≠ (c : ℤ) := (CharString.ne_zero (s := s) (by simp [hs])).symm
  have hget := Arr.get_eq (h.seen c hc)
  rw [if_pos hmem] at hget
  have hseen : ∀ d : ℕ, d < 256 →
      st.map[d]? = some (if (d : ℤ) ∈ pre ++ [(c : ℤ)] then 1 else 0) := by
    intro d hd
    have hiff : (d : ℤ) ∈ pre ++ [(c : ℤ)] ↔ (d : ℤ) ∈ pre := by
      simp only [List.mem_append, List.mem_singleton, or_iff_left_iff_imp]
      rintro hdc
      rwa [hdc]
    simp only [h.seen d hd, hiff]
  obtain ⟨done, rfl⟩ := h.window.suffix
  obtain ⟨j, hfind, hj⟩ := returns_find hs h.start_eq h.stop
  have hbody : Returns (scanBody s st) (.next (advance { st with
      start := if j ≠ st.stop then CInt.wrap (j.val + 1) else st.start })) := by
    simp only [scanBody, hchar, hget, Prog.liftM_eq_lift, Prog.lift_ok, Prog.pure_bind, ne_eq, hne,
      not_false_eq_true, if_true]
    exact hfind.bind (returns_pure _)
  have hsum := h.start
  have hstop := h.stop
  by_cases hw : (c : ℤ) ∈ w
  · -- the character is in the window, which now starts behind it
    obtain ⟨a, b, rfl⟩ := List.append_of_mem hw
    have ha : (c : ℤ) ∉ a := fun hca =>
      (List.nodup_append.mp h.window.nodup).2.2 _ hca _ (List.mem_cons_self ..) rfl
    rw [List.idxOf_append_of_notMem ha, List.idxOf_cons_self, Nat.add_zero] at hj
    simp only [List.length_append, List.length_cons] at hsum hstop
    push_cast at hsum hstop
    have hlt : j < st.stop := show j.val < st.stop.val by omega
    rw [if_pos hlt.ne] at hbody
    refine ⟨_, b ++ [(c : ℤ)], hbody, ⟨h.window.concat_old, ?_, h.size, hseen⟩, rfl, rfl⟩
    show (CInt.wrap (j.val + 1)).val + _ = _
    rw [CInt.wrap_succ hlt]
    simp only [List.length_append, List.length_cons, List.length_nil]
    push_cast
    omega
  · -- the mark is stale, and the search runs to the end of the window
    rw [List.idxOf_eq_length_iff.mpr hw] at hj
    have hend : j = st.stop := Subtype.ext (by omega)
    rw [if_neg (not_not.mpr hend)] at hbody
    refine ⟨_, w ++ [(c : ℤ)], hbody, ⟨h.window.concat_new hw, ?_, h.size, hseen⟩, rfl, rfl⟩
    simp only [List.length_append, List.length_singleton] at hsum ⊢
    push_cast at hsum ⊢
    omega

theorem Scanned.mark_new {st : Scan} {pre w suf : List ℤ} {c : ℕ} (h : Scanned st pre w)
    (hs : s.chars = pre ++ (c : ℤ) :: suf) (hc : c < 256) (hmem : (c : ℤ) ∉ pre) :
    ∃ st' w', Returns (scanBody s st) (.next (advance st')) ∧ Marked st' (pre ++ [(c : ℤ)]) w' ∧
      st'.stop = st.stop ∧ st'.maxlength = st.maxlength := by
  have hchar : s.charAt st.stop = .ok (c : ℤ) := CharString.charAt_of_append hs h.stop
  have hne : 0 ≠ (c : ℤ) := (CharString.ne_zero (s := s) (by simp [hs])).symm
  have hget := Arr.get_eq (h.seen c hc)
  rw [if_neg hmem] at hget
  have hlt : c < st.map.length := by rw [h.size]; exact hc
  have hset := Arr.set_eq hlt (1 : ℤ)
  have hbody : scanBody s st = pure (.next (advance { st with map := st.map.set c 1 })) := by
    simp [scanBody, hchar, hget, hset, hne]
  have hw : (c : ℤ) ∉ w := fun hcw => hmem (h.window.suffix.subset hcw)
  refine ⟨_, w ++ [(c : ℤ)], returns_of_eq hbody,
    ⟨h.window.concat_new hw, ?_, by simpa using h.size, fun d hd => ?_⟩, rfl, rfl⟩
  · have hsum := h.start
    simp only [List.length_append, List.length_singleton]
    push_cast
    omega
  · show (st.map.set c 1)[d]? = _
    by_cases hdc : d = c
    · subst hdc
      simp [hlt]
    · rw [List.getElem?_set_ne (Ne.symm hdc), h.seen d hd]
      simp [hdc]

theorem Scanned.mark {st : Scan} {pre w suf : List ℤ} {c : ℕ} (h : Scanned st pre w)
    (hs : s.chars = pre ++ (c : ℤ) :: suf) (hc : c < 256) :
    ∃ st' w', Returns (scanBody s st) (.next (advance st')) ∧ Marked st' (pre ++ [(c : ℤ)]) w' ∧
      st'.stop = st.stop ∧ st'.maxlength = st.maxlength := by
  by_cases hmem : (c : ℤ) ∈ pre
  · exact h.mark_seen hs hc hmem
  · exact h.mark_new hs hc hmem

theorem Scanned.advance {st st' : Scan} {pre w w' : List ℤ} {c : ℤ} (h : Scanned st pre w)
    (hmark : Marked st' (pre ++ [c]) w') (hstop : st'.stop = st.stop)
    (hmax : st'.maxlength = st.maxlength) (hfit : (pre.length : ℤ) < intMax) :
    Scanned (advance st') (pre ++ [c]) w' := by
  obtain ⟨n, hn, hlong⟩ := h.longest
  have hnext : (CInt.wrap (st'.stop.val + 1)).val = pre.length + 1 := by
    rw [hstop, h.stop]
    exact CInt.wrap_of_fits ⟨by unfold intMin; omega, by omega⟩
  have hsum := hmark.start
  simp only [List.length_append, List.length_singleton] at hsum
  push_cast at hsum
  have hle := hmark.window.suffix.length_le
  rw [List.length_append, List.length_singleton] at hle
  have hlength : (CInt.wrap ((CInt.wrap (st'.stop.val + 1)).val - st'.start.val)).val =
      w'.length := by
    have hdiff : (CInt.wrap (st'.stop.val + 1)).val - st'.start.val = w'.length := by omega
    rw [hdiff]
    exact CInt.wrap_natCast (by omega)
  refine ⟨⟨hmark.window, hmark.start, hmark.size, hmark.seen⟩, ?_, max n w'.length, ?_,
    hlong.concat hmark.window⟩
  · show (CInt.wrap (st'.stop.val + 1)).val = _
    rw [hnext]
    simp
  · show (if st'.maxlength > _ then st'.maxlength else _).val = _
    rw [hmax, Nat.cast_max, ← hn, ← hlength]
    split
    · next hgt => exact (max_eq_left (show _ ≤ st.maxlength.val from le_of_lt hgt)).symm
    · next hle => exact (max_eq_right (show st.maxlength.val ≤ _ from not_lt.mp hle)).symm

/-! ### The run -/

theorem Scanned.iterates {st : Scan} {pre w mid suf : List ℤ} (h : Scanned st pre w)
    (hs : s.chars = pre ++ mid ++ suf) (hrange : ∀ c ∈ mid, 0 ≤ c ∧ c < 256)
    (hfit : ((pre ++ mid).length : ℤ) ≤ intMax) :
    ∃ k st' w', Iterates (scanBody s) k st st' ∧ Scanned st' (pre ++ mid) w' := by
  induction mid generalizing st pre w with
  | nil => exact ⟨0, st, w, .zero st, by simpa using h⟩
  | cons c mid ih =>
    obtain ⟨hpos, hlt⟩ := hrange c (by simp)
    obtain ⟨n, rfl⟩ := Int.eq_ofNat_of_zero_le hpos
    obtain ⟨st₁, w₁, hret, hmark, hstop, hmax⟩ :=
      h.mark (show s.chars = pre ++ (n : ℤ) :: (mid ++ suf) by simpa using hs) (by omega)
    rw [List.append_cons] at hs hfit ⊢
    have hlt : (pre.length : ℤ) < intMax := by
      simp only [List.length_append, List.length_singleton] at hfit
      push_cast at hfit
      omega
    obtain ⟨k, st', w', hiter, hscan⟩ := ih (h.advance hmark hstop hmax hlt) hs
      (fun d hd => hrange d (List.mem_cons_of_mem _ hd)) hfit
    exact ⟨k + 1, st', w', hiter.head hret, hscan⟩

theorem ascii_range {c : ℤ} (h : 1 ≤ c ∧ c ≤ 127) : 0 ≤ c ∧ c < 256 := by omega

theorem overflow_faults (hs : ∀ c ∈ s.chars, 1 ≤ c ∧ c ≤ 127)
    (hlen : intMax < (s.chars.length : ℤ)) : Faults (lengthOfLongestSubstring s) ⟨intMin⟩ := by
  obtain ⟨N, hN⟩ : ∃ N : ℕ, (N : ℤ) = intMax := ⟨2147483647, rfl⟩
  have hlt : N < s.chars.length := by omega
  have hsplit := List.take_append_drop N s.chars
  rw [List.drop_eq_getElem_cons hlt] at hsplit
  have htake : ((s.chars.take N).length : ℤ) = intMax := by
    rw [List.length_take, min_eq_left hlt.le, hN]
  obtain ⟨hpos, hle⟩ := hs _ (List.getElem_mem hlt)
  obtain ⟨c, hc⟩ := Int.eq_ofNat_of_zero_le (zero_le_one.trans hpos)
  rw [hc] at hsplit hle
  obtain ⟨k, st, w, hiter, hscan⟩ := scanned_init.iterates
    (show s.chars = [] ++ s.chars.take N ++ (c : ℤ) :: s.chars.drop (N + 1) from hsplit.symm)
    (fun d hd => ascii_range (hs d (List.mem_of_mem_take hd))) htake.le
  obtain ⟨st', w', hret, -, hstop, -⟩ := hscan.mark (by simpa using hsplit.symm) (by omega)
  have hend : (advance st').stop.val = intMin := by
    show (CInt.wrap (st'.stop.val + 1)).val = _
    rw [hstop, hscan.stop, List.nil_append, htake]
    rfl
  refine hiter.faults_loop (faults_loop_next hret (faults_loop (Faults.bind (faults_lift ?_))))
  rw [CharString.charAt, hend]
  exact Arr.get_of_neg (by decide) _

/-- The greatest length of a substring without a repeated character is returned. -/
theorem lengthOfLongestSubstring_longest (s : CharString T)
    (hs : ∀ c ∈ s.chars, 1 ≤ c ∧ c ≤ 127) (hlen : (s.chars.length : ℤ) ≤ intMax) :
    ∃ (v : CInt) (n : ℕ), Returns (lengthOfLongestSubstring s) v ∧ v.val = n ∧
      LongestRun s.chars n := by
  obtain ⟨k, st, w, hiter, hscan⟩ := scanned_init.iterates
    (show s.chars = [] ++ s.chars ++ [] from (List.append_nil _).symm)
    (fun c hc => ascii_range (hs c hc)) hlen
  rw [List.nil_append] at hscan
  obtain ⟨n, hn, hlong⟩ := hscan.longest
  have hnul : s.charAt st.stop = .ok 0 := by
    rw [hscan.stop]
    exact s.charAt_len
  refine ⟨st.maxlength, n, hiter.returns_loop (returns_loop_exit (returns_of_eq ?_)), hn, hlong⟩
  simp [scanBody, hnul]

theorem lengthOfLongestSubstring_longest_sample :
    ∃ (v : CInt) (n : ℕ), Returns (lengthOfLongestSubstring
        (⟨[100, 118, 100, 102], by decide, by decide⟩ : CharString .signed)) v ∧ v.val = n ∧
      LongestRun ([100, 118, 100, 102] : List ℤ) n :=
  lengthOfLongestSubstring_longest _ (by decide) (by decide)

def letters (n : ℕ) : CharString .signed where
  chars := List.replicate n 97
  inRange c hc := by rw [List.eq_of_mem_replicate hc]; decide
  noNul h := absurd (List.eq_of_mem_replicate h) (by decide)

/-- `2^31` letters. -/
theorem long_string_faults :
    (∀ c ∈ (letters 2147483648).chars, 1 ≤ c ∧ c ≤ 127) ∧
    ∀ v, ¬ Returns (lengthOfLongestSubstring (letters 2147483648)) v := by
  have hrange : ∀ c ∈ (letters 2147483648).chars, 1 ≤ c ∧ c ≤ 127 := by
    intro c hc
    rw [List.eq_of_mem_replicate hc]
    decide
  have hlen : intMax < ((letters 2147483648).chars.length : ℤ) := by
    rw [letters, List.length_replicate]
    decide
  exact ⟨hrange, fun v hret => hret.not_faults (overflow_faults hrange hlen)⟩

end GoodCommand.LongestSubstring
