import GoodCommand.Library.Except
import GoodCommand.Palindrome.LongestPalindrome

/-! The window that `longestPalindrome` has selected is copied by an `snprintf` whose format is the
rest of the string from the window on: when it is copied as it stands. -/

namespace GoodCommand.Palindrome
open Fuel

variable {s : CString} {c : Char} {fmt out pre w suf : List Char}

/-! ### Formats -/

/-- Every `%`, from the left, is one of a pair. -/
inductive Paired : List Char → Prop
  | nil : Paired []
  | percents {fmt : List Char} : Paired fmt → Paired ('%' :: '%' :: fmt)
  | char {c : Char} {fmt : List Char} : c ≠ '%' → Paired fmt → Paired (c :: fmt)

inductive Prints : List Char → List Char → Prop
  | nil : Prints [] []
  | percents {fmt out : List Char} : Prints fmt out → Prints ('%' :: '%' :: fmt) ('%' :: out)
  | char {c : Char} {fmt out : List Char} : c ≠ '%' → Prints fmt out →
      Prints (c :: fmt) (c :: out)

theorem Prints.format_eq (h : Prints fmt out) : format fmt = .ok out := by
  induction h with
  | nil => rfl
  | percents _ ih =>
    rw [format, ih]
    rfl
  | char hc _ ih =>
    rw [format, ih]
    · rfl
    · exact fun _ heq => absurd heq hc
    · exact hc

theorem prints_of_format (h : format fmt = .ok out) : Prints fmt out := by
  induction fmt using format.induct generalizing out with
  | case1 =>
    cases h
    exact .nil
  | case2 fmt ih =>
    rw [format] at h
    obtain ⟨out', hout, h⟩ := bind_ok h
    cases h
    exact .percents (ih hout)
  | case3 tail hsingle =>
    rw [format.eq_3 tail hsingle] at h
    cases h
  | case4 c fmt hpair hc ih =>
    rw [format.eq_4 c fmt hpair hc] at h
    obtain ⟨out', hout, h⟩ := bind_ok h
    cases h
    exact .char hc (ih hout)

theorem paired_iff : Paired fmt ↔ ∃ out, Prints fmt out := by
  constructor
  · intro h
    induction h with
    | nil => exact ⟨_, .nil⟩
    | percents _ ih => exact ih.imp' _ fun _ => .percents
    | char hc _ ih => exact ih.imp' _ fun _ => .char hc
  · rintro ⟨out, h⟩
    induction h with
    | nil => exact .nil
    | percents _ ih => exact ih.percents
    | char hc _ ih => exact ih.char hc

theorem Prints.subset (h : Prints fmt out) : out ⊆ fmt := by
  induction h with
  | nil => exact List.Subset.refl _
  | percents _ ih => exact List.cons_subset_cons _ (List.subset_cons_of_subset _ ih)
  | char _ _ ih => exact List.cons_subset_cons _ ih

theorem prints_char_iff (hc : c ≠ '%') :
    Prints (c :: fmt) out ↔ ∃ out', out = c :: out' ∧ Prints fmt out' := by
  constructor
  · intro h
    cases h with
    | percents _ => exact absurd rfl hc
    | char _ h => exact ⟨_, rfl, h⟩
  · rintro ⟨out', rfl, h⟩
    exact .char hc h

theorem prints_append_iff (h : '%' ∉ w) :
    Prints (w ++ fmt) out ↔ ∃ out', out = w ++ out' ∧ Prints fmt out' := by
  induction w generalizing out with
  | nil => exact ⟨fun hout => ⟨out, rfl, hout⟩, fun ⟨_, heq, hout⟩ => heq ▸ hout⟩
  | cons c w ih =>
    obtain ⟨hc, hw⟩ := not_or.mp (mt List.mem_cons.mpr h)
    rw [List.cons_append, prints_char_iff (Ne.symm hc)]
    constructor
    · rintro ⟨out₁, rfl, hout⟩
      obtain ⟨out', rfl, hout'⟩ := (ih hw).mp hout
      exact ⟨out', rfl, hout'⟩
    · rintro ⟨out', rfl, hout'⟩
      exact ⟨w ++ out', rfl, (ih hw).mpr ⟨out', rfl, hout'⟩⟩

theorem Prints.percents_iff (h : Prints fmt out) (n : ℕ) :
    List.replicate n '%' <+: out ↔ List.replicate (2 * n) '%' <+: fmt := by
  induction h generalizing n with
  | nil =>
    cases n with
    | zero => exact ⟨fun _ => List.nil_prefix, fun _ => List.nil_prefix⟩
    | succ n => simp [Nat.mul_succ, List.replicate_succ]
  | percents _ ih =>
    cases n with
    | zero => exact ⟨fun _ => List.nil_prefix, fun _ => List.nil_prefix⟩
    | succ n =>
      simp only [Nat.mul_succ, List.replicate_succ, List.cons_prefix_cons, true_and]
      exact ih n
  | char hc _ ih =>
    cases n with
    | zero => exact ⟨fun _ => List.nil_prefix, fun _ => List.nil_prefix⟩
    | succ n => simp [Nat.mul_succ, List.replicate_succ, Ne.symm hc]

theorem Prints.all_percents (h : Prints ('%' :: w ++ suf) out) (hw : '%' :: w <+: out) :
    '%' :: w = List.replicate (w.length + 1) '%' ∧
      List.replicate (2 * (w.length + 1)) '%' <+: '%' :: w ++ suf := by
  have key : ∀ n, n ≤ w.length → List.replicate (n + 1) '%' <+: '%' :: w := by
    intro n
    induction n with
    | zero => exact fun _ => List.cons_prefix_cons.mpr ⟨rfl, List.nil_prefix⟩
    | succ n ih =>
      -- twice as many stand in the format as are known to be printed
      intro hn
      have hdouble := (h.percents_iff (n + 1)).mp ((ih (by omega)).trans hw)
      have hmore : List.replicate (n + 2) '%' <+: '%' :: w ++ suf :=
        (List.prefix_replicate_iff.mpr ⟨by simp; omega, by simp⟩).trans hdouble
      exact List.prefix_of_prefix_length_le hmore (List.prefix_append _ _) (by simpa using hn)
  have hall := key w.length le_rfl
  exact ⟨(hall.eq_of_length (by simp)).symm, (h.percents_iff _).mp (hall.trans hw)⟩

theorem Prints.prefix_iff (h : Prints (w ++ suf) out) (hp : w.Palindrome) :
    w <+: out ↔ ('%' ∈ w → List.replicate (2 * w.length) '%' <+: w ++ suf) := by
  by_cases hmem : '%' ∈ w
  · rw [imp_iff_right hmem]
    constructor
    · intro hw
      obtain ⟨a, b, rfl, ha⟩ := List.eq_append_cons_of_mem hmem
      rw [List.append_assoc, List.cons_append] at h
      obtain ⟨out', rfl, hout'⟩ := (prints_append_iff ha).mp h
      obtain ⟨hall, hmore⟩ := Prints.all_percents hout' ((List.prefix_append_right_inj a).mp hw)
      -- the palindrome ends with a percent sign, so it begins with one
      cases a with
      | nil => simpa using hmore
      | cons c a =>
        have hrev := hp.reverse_eq
        rw [hall, List.reverse_append, List.reverse_replicate, List.replicate_succ,
          List.cons_append, List.cons_append] at hrev
        exact absurd (List.cons.inj hrev).1 fun heq => ha (heq ▸ List.mem_cons_self)
    · intro hdouble
      have hw : w <+: List.replicate (2 * w.length) '%' :=
        List.prefix_of_prefix_length_le (List.prefix_append _ _) hdouble (by simp; omega)
      rw [(List.prefix_replicate_iff.mp hw).2]
      exact (h.percents_iff _).mpr hdouble
  · obtain ⟨out', rfl, -⟩ := (prints_append_iff hmem).mp h
    exact ⟨fun _ h => absurd h hmem, fun _ => List.prefix_append _ _⟩

/-! ### The copy of the window -/

/-- What is returned is the window `s[start .. start+length)`, with NULs behind it, in a buffer that
has room for it. -/
def CopiesVerbatim (s : CString) : Prop :=
  ∃ st, Returns (loop (scanBody s (CInt.wrap s.len)) ⟨0, 0, 0, 0, 0⟩) st ∧ st.length ≤ 1000 ∧
    Returns (longestPalindrome s)
      (buffer 1001 ((s.chars.drop st.start.toNat).take st.length.toNat))

theorem not_mem_of_subset_drop {k : ℕ} (h : out ⊆ s.chars.drop k) : '\x00' ∉ out :=
  fun hmem => s.noNul (List.mem_of_mem_drop (h hmem))

theorem copiesVerbatim_iff_prints {st : Scan} {k n : ℕ}
    (hrun : Returns (loop (scanBody s (CInt.wrap s.len)) ⟨0, 0, 0, 0, 0⟩) st)
    (hne : (CInt.wrap s.len).val ≠ 0) (hstart : st.start = k) (hlength : st.length = n)
    (hk : k ≤ s.chars.length) :
    CopiesVerbatim s ↔ n ≤ 1000 ∧
      ∃ out, Prints (s.chars.drop k) out ∧ out.take n = (s.chars.drop k).take n := by
  have hreturn := fun hn : n ≤ 1000 => returns_copy_iff hrun hne hstart hlength hk hn
  constructor
  · rintro ⟨st', hrun', hle, hcopy⟩
    obtain rfl := hrun.unique hrun'
    rw [hlength] at hle
    have hn : n ≤ 1000 := by omega
    rw [hstart, hlength, Int.toNat_natCast, Int.toNat_natCast] at hcopy
    have hprint := (hreturn hn _).mp hcopy
    cases hformat : format (s.chars.drop k) with
    | error e =>
      simp only [snprintf, hformat, bind, Except.bind] at hprint
      cases hprint
    | ok out =>
      have hprints := prints_of_format hformat
      rw [snprintf_eq hformat hn] at hprint
      refine ⟨hn, out, hprints, buffer_inj ?_ ?_ (Except.ok.inj hprint)⟩
      · exact not_mem_of_subset_drop (List.Subset.trans (List.take_subset _ _) hprints.subset)
      · exact not_mem_of_subset_drop (List.take_subset _ _)
  · rintro ⟨hn, out, hprints, htake⟩
    refine ⟨st, hrun, by rw [hlength]; exact_mod_cast hn, (hreturn hn _).mpr ?_⟩
    rw [snprintf_eq hprints.format_eq hn, htake, hstart, hlength, Int.toNat_natCast,
      Int.toNat_natCast]

theorem copiesVerbatim_iff_window (hpos : 0 < (CInt.wrap s.len).val)
    (hsplit : s.chars = pre ++ w ++ suf) (hw : RightmostLongest (seen s) pre w) :
    CopiesVerbatim s ↔ w.length ≤ 1000 ∧ Paired (w ++ suf) ∧
      ('%' ∈ w → List.replicate (2 * w.length) '%' <+: w ++ suf) := by
  obtain ⟨st, pre', w', hrun, hw', -, hstart, hlength⟩ :=
    scan_selects (sees_seen s) (seen_ne_nil hpos)
  obtain ⟨rfl, rfl⟩ := hw.unique hw'
  have hdrop : s.chars.drop pre.length = w ++ suf := by
    rw [hsplit, List.append_assoc, List.drop_left]
  rw [copiesVerbatim_iff_prints hrun hpos.ne' hstart hlength (by simp [hsplit]), hdrop,
    List.take_left]
  have htake : ∀ out : List Char, out.take w.length = w ↔ w <+: out := fun out => by
    rw [List.prefix_iff_eq_take, eq_comm]
  refine and_congr_right fun _ => ?_
  constructor
  · rintro ⟨out, hprints, hcopy⟩
    exact ⟨paired_iff.mpr ⟨out, hprints⟩,
      (hprints.prefix_iff hw.palindrome).mp ((htake out).mp hcopy)⟩
  · rintro ⟨hpaired, hpercents⟩
    obtain ⟨out, hprints⟩ := paired_iff.mp hpaired
    exact ⟨out, hprints, (htake out).mpr ((hprints.prefix_iff hw.palindrome).mpr hpercents)⟩

/-- A scan that sees nothing leaves an empty window at index 1. -/
theorem scan_unseen (h : (CInt.wrap s.len).val ≤ 0) :
    Returns (loop (scanBody s (CInt.wrap s.len)) ⟨0, 0, 0, 0, 0⟩) ⟨0, 0, 0, 0, 0⟩ := by
  refine returns_loop_exit (returns_of_eq ?_)
  simp only [scanBody, if_neg (not_lt.mpr h)]

theorem copiesVerbatim_iff_unseen (hneg : (CInt.wrap s.len).val < 0) :
    CopiesVerbatim s ↔ Paired (s.chars.drop 1) := by
  have hlen : 1 ≤ s.chars.length := by
    by_contra hnil
    have hzero : s.len = 0 := by
      rw [CString.len]
      omega
    rw [hzero] at hneg
    exact absurd hneg (by decide)
  rw [copiesVerbatim_iff_prints (scan_unseen hneg.le) hneg.ne (k := 1) (n := 0) rfl rfl hlen]
  simp only [Nat.zero_le, true_and, List.take_zero, and_true, ← paired_iff]

theorem copiesVerbatim_of_zero (hzero : (CInt.wrap s.len).val = 0) : CopiesVerbatim s := by
  refine ⟨_, scan_unseen hzero.le, by decide, (scan_unseen hzero.le).bind ?_⟩
  simp only [if_pos hzero]
  exact returns_pure _

/-- What a string is like whose window is copied as it stands. -/
inductive Copyable (s : CString) : Prop
  /-- The empty string, and those whose length `len` does not tell from it. -/
  | empty : (CInt.wrap s.len).val = 0 → Copyable s
  | unseen : (CInt.wrap s.len).val < 0 → Paired (s.chars.drop 1) → Copyable s
  | window {pre w suf : List Char} : 0 < (CInt.wrap s.len).val → s.chars = pre ++ w ++ suf →
      RightmostLongest (seen s) pre w → w.length ≤ 1000 → Paired (w ++ suf) →
      ('%' ∈ w → List.replicate (2 * w.length) '%' <+: w ++ suf) → Copyable s

/-- The window is copied verbatim exactly when it fits the buffer and its format is what it
prints. -/
theorem copiesVerbatim_iff (s : CString) : CopiesVerbatim s ↔ Copyable s := by
  constructor
  · intro h
    rcases lt_trichotomy (CInt.wrap s.len).val 0 with hneg | hzero | hpos
    · exact .unseen hneg ((copiesVerbatim_iff_unseen hneg).mp h)
    · exact .empty hzero
    · obtain ⟨st, pre, w, -, hw, -⟩ := scan_selects (sees_seen s) (seen_ne_nil hpos)
      obtain ⟨suf, hsuf⟩ := hw.isPrefix.trans (List.take_prefix _ _)
      obtain ⟨hle, hpaired, hpercents⟩ := (copiesVerbatim_iff_window hpos hsuf.symm hw).mp h
      exact .window hpos hsuf.symm hw hle hpaired hpercents
  · intro h
    cases h with
    | empty hzero => exact copiesVerbatim_of_zero hzero
    | unseen hneg hpaired => exact (copiesVerbatim_iff_unseen hneg).mpr hpaired
    | window hpos hsplit hw hle hpaired hpercents =>
      exact (copiesVerbatim_iff_window hpos hsplit hw).mpr ⟨hle, hpaired, hpercents⟩

theorem paired_append_iff (h : '%' ∉ w) : Paired (w ++ fmt) ↔ Paired fmt := by
  simp only [paired_iff, prints_append_iff h]
  exact ⟨fun ⟨_, out, _, hout⟩ => ⟨out, hout⟩, fun ⟨out, hout⟩ => ⟨_, out, rfl, hout⟩⟩

/-- For a string whose length is an `int`: the last of the longest palindromes fits the buffer and
has no percent sign, and the percent signs behind it come in pairs. -/
theorem copyable_iff (hlen : s.len ≤ intMax) : Copyable s ↔ s.chars = [] ∨
    ∃ pre w suf, s.chars = pre ++ w ++ suf ∧ RightmostLongest s.chars pre w ∧ w.length ≤ 1000 ∧
      '%' ∉ w ∧ Paired suf := by
  have hwrap : (CInt.wrap s.len).val = s.chars.length := CInt.wrap_natCast hlen
  have hseen := seen_eq hlen
  constructor
  · intro h
    cases h with
    | empty hzero => exact .inl (List.length_eq_zero_iff.mp (by omega))
    | unseen hneg => omega
    | @window pre w suf hpos hsplit hw hle hpaired hpercents =>
      rw [hseen] at hw
      -- with one more percent sign the window would be longer
      have hmem : '%' ∉ w := by
        intro hmem
        have hrun : List.replicate (w.length + 1) '%' <+: w ++ suf :=
          (List.prefix_replicate_iff.mpr ⟨by
            have := List.length_pos_of_mem hmem
            simp
            omega, by simp⟩).trans (hpercents hmem)
        have hinfix : List.replicate (w.length + 1) '%' <:+: s.chars := by
          rw [hsplit, List.append_assoc]
          exact hrun.isInfix.trans (List.suffix_append _ _).isInfix
        have hle := hw.longest _ hinfix (.of_reverse_eq List.reverse_replicate)
        rw [List.length_replicate] at hle
        omega
      exact .inr ⟨pre, w, suf, hsplit, hw, hle, hmem, (paired_append_iff hmem).mp hpaired⟩
  · rintro (hnil | ⟨pre, w, suf, hsplit, hw, hle, hmem, hpaired⟩)
    · exact .empty (by rw [hwrap, hnil]; rfl)
    · by_cases hnil : s.chars = []
      · exact .empty (by rw [hwrap, hnil]; rfl)
      · have hpos := List.length_pos_iff.mpr hnil
        exact .window (by omega) hsplit (hseen ▸ hw) hle ((paired_append_iff hmem).mpr hpaired)
          fun h => absurd h hmem

theorem not_copiesVerbatim_of_palindrome (hp : s.chars.Palindrome) (hne : s.chars ≠ [])
    (hlen : s.len ≤ intMax) (hbad : 1000 < s.chars.length ∨ '%' ∈ s.chars) :
    ¬ CopiesVerbatim s := by
  have hwrap : (CInt.wrap s.len).val = s.chars.length := CInt.wrap_natCast hlen
  have hpos := List.length_pos_iff.mpr hne
  have hself : RightmostLongest (seen s) [] s.chars := by
    rw [seen_eq hlen]
    exact .self hp
  rw [copiesVerbatim_iff_window (by omega) (List.append_nil _).symm hself, List.append_nil]
  rintro ⟨hle, -, hpercents⟩
  rcases hbad with hlong | hmem
  · omega
  · have hle := (hpercents hmem).length_le
    rw [List.length_replicate] at hle
    omega

def repeated (n : ℕ) (c : Char) (hc : c ≠ '\x00') : CString where
  chars := List.replicate n c
  noNul h := hc (List.eq_of_mem_replicate h).symm

/-- Of `%%` one percent sign is copied; 1001 letters and their NUL do not fit the buffer. -/
theorem windows_not_copied :
    ¬ CopiesVerbatim (repeated 2 '%' (by decide)) ∧
      ¬ CopiesVerbatim (repeated 1001 'a' (by decide)) := by
  constructor
  · exact not_copiesVerbatim_of_palindrome (.of_reverse_eq List.reverse_replicate)
      (List.cons_ne_nil _ _) (by decide) (.inr (List.mem_cons_self ..))
  · refine not_copiesVerbatim_of_palindrome (.of_reverse_eq List.reverse_replicate) ?_ ?_ (.inl ?_)
    · exact List.ne_nil_of_length_pos (by rw [repeated, List.length_replicate]; decide)
    · rw [CString.len, repeated, List.length_replicate]
      decide
    · rw [repeated, List.length_replicate]
      decide

end GoodCommand.Palindrome
