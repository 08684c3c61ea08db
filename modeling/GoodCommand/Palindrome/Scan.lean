import GoodCommand.Library.Mirrored
import GoodCommand.Palindrome.Defs

/-! The scan of `longestPalindrome` selects a longest palindrome of what it sees of the string, the
last one if there are several. -/

namespace GoodCommand.Palindrome
open Fuel

variable {s : CString} {len : CInt} {l : List Char} {d i n : ℕ}

structure Sees (s : CString) (len : CInt) (l : List Char) : Prop where
  isPrefix : l <+: s.chars
  length_eq : len.val.toNat = l.length

/-- The first `len` characters, for the `int` that `len` is. -/
def seen (s : CString) : List Char := s.chars.take (CInt.wrap s.len).val.toNat

theorem sees_seen (s : CString) : Sees s (CInt.wrap s.len) (seen s) where
  isPrefix := List.take_prefix _ _
  length_eq := by
    have hle : (CInt.wrap s.len).val ≤ s.len := CInt.wrap_le (by rw [CString.len]; omega)
    rw [CString.len] at hle ⊢
    rw [seen, CString.len, List.length_take]
    omega

theorem seen_ne_nil (hpos : 0 < (CInt.wrap s.len).val) : seen s ≠ [] := by
  have hlen := (sees_seen s).length_eq
  exact List.ne_nil_of_length_pos (by omega)

theorem seen_eq (hlen : s.len ≤ intMax) : seen s = s.chars := by
  have hwrap : (CInt.wrap s.len).val = s.chars.length := CInt.wrap_natCast hlen
  rw [seen, hwrap, Int.toNat_natCast, List.take_length]

theorem Sees.charAt (hl : Sees s len l) {j : ℤ} {k : ℕ} (hj : j = k) (hk : k < l.length) :
    charAt s j = .ok l[k] := by
  have hle := hl.isPrefix.length_le
  have hin : 0 ≤ j ∧ j ≤ s.len := by
    rw [hj, CString.len]
    omega
  rw [Palindrome.charAt, if_pos hin, hj, Int.toNat_natCast,
    List.getD_eq_getElem _ _ (lt_of_lt_of_le hk hle), hl.isPrefix.getElem hk]

/-- `step` and `index` are the arms and the centre of a largest window among the centres before
`n`, the last one. -/
structure Best (l : List Char) (d n : ℕ) (step index : ℤ) : Prop where
  attained : ∃ c t : ℕ, index = c ∧ step = t ∧ Mirrored l c d t
  maximal : ∀ c < n, ∀ t, Mirrored l c d t → (t : ℤ) ≤ step
  last : ∀ c < n, ∀ t : ℕ, 0 < t → step = t → Mirrored l c d t → (c : ℤ) ≤ index

theorem Best.initial : Best l d 0 0 0 where
  attained := ⟨0, 0, rfl, rfl, .zero _ _ _⟩
  maximal c hc := absurd hc (Nat.not_lt_zero c)
  last c hc := absurd hc (Nat.not_lt_zero c)

theorem Best.nonneg {step index : ℤ} (hbest : Best l d n step index) : 0 ≤ step := by
  obtain ⟨c, t, -, ht, -⟩ := hbest.attained
  omega

structure ArmsInv (l : List Char) (d i : ℕ) (st : Arms) : Prop where
  mirrored : ∃ t : ℕ, st.step = t ∧ Mirrored l i d t
  best : Best l d i st.best st.index
  le_best : st.step ≤ st.best
  tie : 0 < st.step → st.step = st.best → st.index = i

def Arms.grow (st : Arms) (i : ℤ) : Arms :=
  if st.best ≤ st.step + 1 then ⟨st.step + 1, st.step + 1, i⟩
  else ⟨st.step + 1, st.best, st.index⟩

@[simp] theorem Arms.grow_step (st : Arms) (i : ℤ) : (st.grow i).step = st.step + 1 := by
  rw [Arms.grow]
  split_ifs <;> rfl

theorem ArmsInv.next {st : Arms} {t : ℕ} (hI : ArmsInv l d i st) (ht : st.step = t)
    (hm : Mirrored l i d (t + 1)) : ArmsInv l d i (st.grow i) := by
  have hstep : st.step + 1 = (t + 1 : ℕ) := by
    rw [ht]
    push_cast
    ring
  rw [Arms.grow]
  split_ifs with hle
  · refine ⟨⟨t + 1, hstep, hm⟩, ⟨⟨i, t + 1, rfl, hstep, hm⟩, fun c hc u hu => ?_,
      fun c hc _ _ _ _ => Int.ofNat_le.mpr hc.le⟩, le_rfl, fun _ _ => rfl⟩
    exact (hI.best.maximal c hc u hu).trans hle
  · have hlt := not_le.mp hle
    exact ⟨⟨t + 1, hstep, hm⟩, hI.best, hlt.le, fun _ heq => absurd heq hlt.ne⟩

theorem ArmsInv.exit {st : Arms} {t : ℕ} (hI : ArmsInv l d i st) (ht : st.step = t)
    (hm : ¬ Mirrored l i d (t + 1)) : Best l d (i + 1) st.best st.index := by
  have hmax : ∀ u, Mirrored l i d u → u ≤ t := fun u hu => not_lt.mp fun hlt => hm (hu.mono hlt)
  have hle := hI.le_best
  refine ⟨hI.best.attained, fun c hc u hu => ?_, fun c hc u hpos hu hcu => ?_⟩
  · rcases Nat.lt_succ_iff_lt_or_eq.mp hc with hlt | rfl
    · exact hI.best.maximal c hlt u hu
    · have := hmax u hu
      omega
  · rcases Nat.lt_succ_iff_lt_or_eq.mp hc with hlt | rfl
    · exact hI.best.last c hlt u hpos hu hcu
    · have := hmax u hcu
      exact (hI.tie (by omega) (by omega)).ge

theorem armsBody_in (hl : Sees s len l) {st : Arms} {t : ℕ} (ht : st.step = t) (hle : t ≤ i)
    (hlt : i + t + d < l.length) : armsBody s len i d st =
      if l[i - t]? = l[i + t + d]? then pure (.next (st.grow i)) else pure (.exit st) := by
  have hlen := hl.length_eq
  have hcond : 0 ≤ (i : ℤ) - st.step ∧ i + st.step + d < len.val := by
    rw [ht]
    omega
  have hlt' : i - t < l.length := by omega
  have hleft : charAt s (i - st.step) = .ok l[i - t] := hl.charAt (by omega) hlt'
  have hright : charAt s (i + st.step + d) = .ok l[i + t + d] := hl.charAt (by omega) hlt
  simp only [armsBody, if_pos hcond, hleft, hright, Prog.liftM_eq_lift, Prog.lift_ok,
    Prog.pure_bind, List.getElem?_eq_getElem hlt', List.getElem?_eq_getElem hlt,
    Option.some.injEq, Arms.grow]
  split_ifs <;> rfl

theorem armsBody_out (hl : Sees s len l) {st : Arms} {t : ℕ} (ht : st.step = t)
    (hout : ¬ (t ≤ i ∧ i + t + d < l.length)) : armsBody s len i d st = pure (.exit st) := by
  have hlen := hl.length_eq
  have hcond : ¬ (0 ≤ (i : ℤ) - st.step ∧ i + st.step + d < len.val) := by
    rw [ht]
    omega
  simp only [armsBody, if_neg hcond]

theorem arms_run (hl : Sees s len l) {step index : ℤ} (hbest : Best l d i step index) :
    ∃ st, Returns (loop (armsBody s len i d) ⟨0, step, index⟩) st ∧
      Best l d (i + 1) st.best st.index := by
  refine returns_loop_of_inv (ArmsInv l d i) (fun st => (i + 1 - st.step).toNat) ?_
    ⟨⟨0, rfl, .zero _ _ _⟩, hbest, hbest.nonneg, fun h => absurd h (lt_irrefl 0)⟩
  intro st hI
  obtain ⟨t, ht, hm⟩ := hI.mirrored
  by_cases hin : t ≤ i ∧ i + t + d < l.length
  · have hbody := armsBody_in hl ht hin.1 hin.2
    by_cases heq : l[i - t]? = l[i + t + d]?
    · rw [if_pos heq] at hbody
      refine .inr ⟨_, returns_of_eq hbody,
        hI.next ht (Mirrored.succ_iff.mpr ⟨hm, hin.1, hin.2, heq⟩), ?_⟩
      rw [Arms.grow_step]
      omega
    · rw [if_neg heq] at hbody
      exact .inl ⟨_, returns_of_eq hbody,
        hI.exit ht fun hm' => heq (Mirrored.succ_iff.mp hm').2.2.2⟩
  · refine .inl ⟨_, returns_of_eq (armsBody_out hl ht hin), hI.exit ht fun hm' => hin ?_⟩
    obtain ⟨-, hle, hlt, -⟩ := Mirrored.succ_iff.mp hm'
    exact ⟨hle, hlt⟩

def ScanInv (l : List Char) (st : Scan) : Prop :=
  ∃ n : ℕ, st.i = n ∧ n ≤ l.length ∧ Best l 1 n st.oddStep st.oddIndex ∧
    Best l 0 n st.evenStep st.evenIndex

theorem scan_run (hl : Sees s len l) : ∃ st, Returns (loop (scanBody s len) ⟨0, 0, 0, 0, 0⟩) st ∧
    Best l 1 l.length st.oddStep st.oddIndex ∧ Best l 0 l.length st.evenStep st.evenIndex := by
  have hlen := hl.length_eq
  refine returns_loop_of_inv (ScanInv l) (fun st => (len.val - st.i).toNat) ?_
    ⟨0, rfl, Nat.zero_le _, .initial, .initial⟩
  rintro st ⟨n, hi, hle, hodd, heven⟩
  by_cases hlt : st.i < len.val
  · obtain ⟨odd, hodd', hbest⟩ := arms_run hl hodd
    obtain ⟨even, heven', hbest'⟩ := arms_run hl heven
    refine .inr ⟨⟨st.i + 1, odd.best, odd.index, even.best, even.index⟩, ?_,
      ⟨n + 1, by rw [hi]; push_cast; rfl, by omega, hbest, hbest'⟩, by dsimp only; omega⟩
    rw [Nat.cast_one, ← hi] at hodd'
    rw [Nat.cast_zero, ← hi] at heven'
    simp only [scanBody, if_pos hlt]
    exact hodd'.bind (heven'.bind (returns_pure _))
  · have hend : n = l.length := by omega
    refine .inl ⟨st, returns_of_eq (by simp only [scanBody, if_neg hlt]), ?_⟩
    rw [← hend]
    exact ⟨hodd, heven⟩

/-! ### The selected window -/

def Scan.start (st : Scan) : ℤ :=
  if st.oddStep ≥ st.evenStep then st.oddIndex - st.oddStep + 1
  else st.evenIndex - st.evenStep + 1

def Scan.length (st : Scan) : ℤ :=
  if st.oddStep ≥ st.evenStep then st.oddStep * 2 else st.evenStep * 2 - 1

/-- The window of the largest arms of all is the last of the longest palindromes. -/
theorem Best.selects {step index : ℤ} (hbest : Best l d l.length step index) (hd : d ≤ 1)
    (hstep : 0 < step) (hall : ∀ c < l.length, ∀ d' ≤ 1, ∀ t, Mirrored l c d' t →
      (2 * t + d' : ℤ) ≤ 2 * step + d) :
    ∃ pre w, RightmostLongest l pre w ∧ w ≠ [] ∧ index - step + 1 = pre.length ∧
      2 * step + d - 1 = w.length := by
  obtain ⟨c, t, rfl, rfl, hm⟩ := hbest.attained
  have ht : 0 < t := by exact_mod_cast hstep
  have hle := hm.le_succ
  have hbound := hm.le_length ht
  have hlength := hm.length_window ht
  have hmax : ∀ c' < l.length, ∀ d' ≤ 1, ∀ t', Mirrored l c' d' t' → 2 * t' + d' ≤ 2 * t + d :=
    fun c' hc' d' hd' t' hm' => by exact_mod_cast hall c' hc' d' hd' t' hm'
  have hlast : ∀ c' < l.length, Mirrored l c' d t → c' ≤ c :=
    fun c' hc' hm' => by exact_mod_cast hbest.last c' hc' t ht rfl hm'
  refine ⟨_, _, RightmostLongest.of_mirrored hd ht hm hmax hlast, ?_, ?_, by omega⟩
  · exact List.ne_nil_of_length_pos (by omega)
  · rw [List.length_take]
    omega

theorem scan_selects (hl : Sees s len l) (hne : l ≠ []) :
    ∃ st pre w, Returns (loop (scanBody s len) ⟨0, 0, 0, 0, 0⟩) st ∧ RightmostLongest l pre w ∧
      w ≠ [] ∧ st.start = pre.length ∧ st.length = w.length := by
  obtain ⟨st, hrun, hodd, heven⟩ := scan_run hl
  have hpos : 0 < l.length := List.length_pos_iff.mpr hne
  have hsingle : Mirrored l 0 0 1 := Mirrored.succ_iff.mpr ⟨.zero _ _ _, le_rfl, hpos, rfl⟩
  have hone := heven.maximal 0 hpos 1 hsingle
  have hmax : ∀ c < l.length, ∀ d ≤ 1, ∀ t : ℕ, Mirrored l c d t →
      d = 0 ∧ t ≤ st.evenStep ∨ d = 1 ∧ t ≤ st.oddStep := by
    intro c hc d hd t hm
    interval_cases d
    · exact .inl ⟨rfl, heven.maximal c hc t hm⟩
    · exact .inr ⟨rfl, hodd.maximal c hc t hm⟩
  by_cases hge : st.oddStep ≥ st.evenStep
  · obtain ⟨pre, w, hw, hwne, hstart, hlength⟩ := hodd.selects le_rfl (by omega)
      fun c hc d hd t hm => by
        have := hmax c hc d hd t hm
        omega
    refine ⟨st, pre, w, hrun, hw, hwne, ?_, ?_⟩
    · rw [Scan.start, if_pos hge, hstart]
    · rw [Scan.length, if_pos hge, ← hlength]
      push_cast
      ring
  · obtain ⟨pre, w, hw, hwne, hstart, hlength⟩ := heven.selects (Nat.zero_le 1) (by omega)
      fun c hc d hd t hm => by
        have := hmax c hc d hd t hm
        omega
    refine ⟨st, pre, w, hrun, hw, hwne, ?_, ?_⟩
    · rw [Scan.start, if_neg hge, hstart]
    · rw [Scan.length, if_neg hge, ← hlength]
      push_cast
      ring

end GoodCommand.Palindrome
