import GoodCommand.Library.Steady
import GoodCommand.Palindrome.Scan

/-! `longestPalindrome` returns a longest palindrome of a string that fits its buffer and is its own
format. -/

namespace GoodCommand.Palindrome
open Fuel

variable {s : CString}

/-! ### The copy -/

theorem suffix_le {j : ℤ} {k : ℕ} (hj : j = k) (hk : k ≤ s.chars.length) :
    suffix s j = .ok (s.chars.drop k) := by
  have hin : 0 ≤ j ∧ j ≤ s.len := by
    rw [hj, CString.len]
    omega
  rw [suffix, if_pos hin, hj, Int.toNat_natCast]

theorem sizeT_wrap {z : ℤ} {n : ℕ} (h : z = n) (hn : (n : ℤ) ≤ intMax) :
    sizeT (CInt.wrap z) = n := by
  unfold intMax at hn
  rw [h, sizeT, CInt.wrap_natCast hn]
  omega

theorem returns_copy_iff {st : Scan} {k n : ℕ}
    (hrun : Returns (loop (scanBody s (CInt.wrap s.len)) ⟨0, 0, 0, 0, 0⟩) st)
    (hne : (CInt.wrap s.len).val ≠ 0) (hstart : st.start = k) (hlength : st.length = n)
    (hk : k ≤ s.chars.length) (hn : n ≤ 1000) (r : List Char) :
    Returns (longestPalindrome s) r ↔
      snprintf (buffer 1001 []) (n + 1) (s.chars.drop k) = .ok r := by
  have hint : ((n + 1 : ℕ) : ℤ) ≤ intMax := by
    unfold intMax
    omega
  rw [← returns_lift_iff]
  refine hrun.bind_iff.trans ?_
  by_cases hge : st.oddStep ≥ st.evenStep
  · rw [Scan.start, if_pos hge] at hstart
    rw [Scan.length, if_pos hge] at hlength
    simp only [if_neg hne, if_pos hge, suffix_le hstart hk, Prog.liftM_eq_lift, Prog.lift_ok,
      Prog.pure_bind]
    rw [sizeT_wrap (by rw [hlength]; rfl) hint]
  · rw [Scan.start, if_neg hge] at hstart
    rw [Scan.length, if_neg hge] at hlength
    simp only [if_neg hne, if_neg hge, suffix_le hstart hk, Prog.liftM_eq_lift, Prog.lift_ok,
      Prog.pure_bind]
    rw [sizeT_wrap (n := n + 1) (by omega) hint]

theorem snprintf_eq {fmt out : List Char} {n : ℕ} (hout : format fmt = .ok out) (hn : n ≤ 1000) :
    snprintf (buffer 1001 []) (n + 1) fmt = .ok (buffer 1001 (out.take n)) := by
  have hle : (out.take n).length ≤ n := List.length_take_le _ _
  have hstore := @store_buffer _ Fault.bufferIndex 1001 [] (out.take n ++ ['\x00'])
    (by simp only [List.length_nil, List.length_append, List.length_singleton]; omega)
  rw [List.nil_append, buffer_append_nul (by omega)] at hstore
  simp only [snprintf, hout, bind, Except.bind]
  rw [if_neg (Nat.succ_ne_zero n)]
  exact hstore

theorem format_of_not_mem {fmt : List Char} (h : '%' ∉ fmt) : format fmt = .ok fmt := by
  induction fmt with
  | nil => rfl
  | cons c fmt ih =>
    obtain ⟨hc, hfmt⟩ := not_or.mp (mt List.mem_cons.mpr h)
    rw [format, ih hfmt]
    · rfl
    · exact fun _ heq => absurd heq.symm hc
    · exact fun heq => hc heq.symm

theorem longestPalindrome_nil (hnil : s.chars = []) :
    Returns (longestPalindrome s) (buffer 1001 []) := by
  obtain ⟨st, hrun, -⟩ := scan_run (sees_seen s)
  have hlen : (CInt.wrap s.len).val = 0 := by
    rw [CString.len, hnil]
    rfl
  refine hrun.bind ?_
  simp only [if_pos hlen]
  exact returns_pure _

theorem longestPalindrome_window (hlen : s.chars.length ≤ 1000) (hpercent : '%' ∉ s.chars)
    (hne : s.chars ≠ []) : ∃ pre w, RightmostLongest s.chars pre w ∧
      Returns (longestPalindrome s) (buffer 1001 w) := by
  have hint : s.len ≤ intMax := by
    rw [CString.len]
    unfold intMax
    omega
  have hwrap : (CInt.wrap s.len).val = s.chars.length := CInt.wrap_natCast hint
  have hl := seen_eq hint ▸ sees_seen s
  obtain ⟨st, pre, w, hrun, hw, -, hstart, hlength⟩ := scan_selects hl hne
  have hpos := List.length_pos_iff.mpr hne
  have hle := hw.isPrefix.length_le
  rw [List.length_append] at hle
  obtain ⟨suf, hsplit⟩ := hw.isPrefix
  have hdrop : s.chars.drop pre.length = w ++ suf := by
    rw [← hsplit, List.append_assoc, List.drop_left]
  refine ⟨pre, w, hw, (returns_copy_iff hrun (by omega) hstart hlength (by omega) (by omega) _).mpr
    ?_⟩
  have hformat : format (s.chars.drop pre.length) = .ok (w ++ suf) := by
    rw [← hdrop]
    exact format_of_not_mem fun h => hpercent (List.mem_of_mem_drop h)
  rw [snprintf_eq hformat (by omega), List.take_left]

/-- `longestPalindrome` returns a longest palindrome of a string of at most 1000 characters that
contains no `%`. -/
theorem longestPalindrome_longest (hlen : s.chars.length ≤ 1000) (hpercent : '%' ∉ s.chars) :
    ∃ r, Returns (longestPalindrome s) r ∧ cString r <:+: s.chars ∧ (cString r).Palindrome ∧
      ∀ w, w <:+: s.chars → w.Palindrome → w.length ≤ (cString r).length := by
  by_cases hnil : s.chars = []
  · refine ⟨_, longestPalindrome_nil hnil, ?_⟩
    rw [cString_buffer List.not_mem_nil]
    refine ⟨List.nil_infix, .nil, fun w hw _ => ?_⟩
    rw [hnil, List.infix_nil] at hw
    rw [hw]
  · obtain ⟨pre, w, hw, hreturn⟩ := longestPalindrome_window hlen hpercent hnil
    have hnul : '\x00' ∉ w := fun h => s.noNul (hw.isInfix.subset h)
    refine ⟨_, hreturn, ?_⟩
    rw [cString_buffer hnul]
    exact ⟨hw.isInfix, hw.palindrome, hw.longest⟩

theorem longestPalindrome_longest_sample :
    ∃ r, Returns (longestPalindrome ⟨['c', 'b', 'b', 'd'], by decide⟩) r ∧
      cString r <:+: ['c', 'b', 'b', 'd'] ∧ (cString r).Palindrome ∧
      ∀ w, w <:+: ['c', 'b', 'b', 'd'] → w.Palindrome → w.length ≤ (cString r).length :=
  longestPalindrome_longest (by decide) (by decide)

end GoodCommand.Palindrome
