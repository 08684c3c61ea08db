import GoodCommand.Calculator.Agreement

/-! The text that `mtob` hands to `cal_bstr`: whether the second scan finds in it what the first one
put there. -/

namespace GoodCommand.Calculator
open Fuel Shunting

variable {P : Platform} {s : List Char}

def numerals (s : List Char) : List ℕ :=
  ((s.splitOnP fun c => !c.isDigit).filter (· ≠ [])).map fun ds => Nat.ofDigitChars 10 ds 0

theorem literals_eq_map (P : Platform) (s : List Char) :
    literals P s = (numerals s).map fun n : ℕ => P.store (n : ℤ) := by
  rw [literals, numerals, List.map_map]
  rfl

theorem wrap_nonneg_iff (n : ℕ) :
    0 ≤ (CInt.wrap (n : ℤ)).val ↔ n % 4294967296 < 2147483648 := by
  rw [CInt.wrap_val, Int.bmod_def]
  split <;> omega

theorem literals_nonneg_iff (hP : ∀ z, P.wide z = CInt.wrap z) (s : List Char) :
    (∀ v ∈ literals P s, 0 ≤ v.val) ↔ ∀ n ∈ numerals s, n % 4294967296 < 2147483648 := by
  rw [literals_eq_map, List.forall_mem_map]
  refine forall₂_congr fun n _ => ?_
  by_cases hr : intMin ≤ (n : ℤ) ∧ (n : ℤ) ≤ intMax
  · have hst : P.store (n : ℤ) = ⟨n, hr⟩ := by rw [Platform.store, CInt.ofInt?_eq_some hr]; rfl
    rw [hst]
    unfold intMin intMax at hr
    show 0 ≤ (n : ℤ) ↔ _
    omega
  · have hst : P.store (n : ℤ) = CInt.wrap n := by
      rw [Platform.store, CInt.ofInt?, dif_neg hr, hP]
      rfl
    rw [hst, wrap_nonneg_iff]

namespace StringStack

/-- `es` is what `mtob` scans, `items` what it emits, and the scanner of `cal_bstr` splits the text
returned into `items` again. -/
def ReadsBack (P : Platform) (s : List Char) (g : Globals) : Prop :=
  ∃ es i items buf g' j, Scans P s es i ∧ postfixOf P es = some items ∧
    Returns (mtob P s g) (some buf, g') ∧ '\x00' ∈ buf ∧ cString buf = text items ∧
    Scans P (cString buf) items j

theorem textTokens_eq_iff (es : List Entry) :
    textTokens P es = es ↔ ∀ v ∈ values es, 0 ≤ v.val := by
  constructor
  · intro h
    have hlen := length_textTokens (P := P) es
    rw [h] at hlen
    have hnone : (values es).countP (fun v => v.val < 0) = 0 := by omega
    simpa [List.countP_eq_zero] using hnone
  · exact fun h => textTokens_of_nonneg fun v hv => h v (mem_values.mpr hv)

theorem NoText.not_readsBack {g : Globals} (h : NoText P s g) : ¬ ReadsBack P s g := by
  rintro ⟨-, -, -, buf, g', -, -, -, hret, hnul, -⟩
  rcases h with ⟨f, hf⟩ | ⟨buf', g'', hret', hnul'⟩
  · exact hret.not_faults hf
  · cases hret.unique hret'
    exact hnul' hnul

theorem readsBack_iff_values (hs : InAlphabet s) {es items : List Entry}
    (hlex : Lexes P (seen s) es) (hpost : postfixOf P es = some items) (hfits : Fits P s)
    {g : Globals} (hg : g.it.val = -1) : ReadsBack P s g ↔ ∀ v ∈ values es, 0 ≤ v.val := by
  have hscan := hfits.scans hs hlex
  have htext := (textFits_iff hlex hpost).mpr hfits.room
  obtain ⟨buf, g', hret, hbuf, hnul, -⟩ := mtob_returns hfits.sized hscan hpost htext hg
  have hback := (lexes_text (P := P) (postfixOf_legal hpost hlex.legal)).splits.scans
    (htext.length_lt hfits.sized).le
  rw [← values_postfixOf hpost, ← textTokens_eq_iff]
  constructor
  · rintro ⟨es', i, items', buf', g'', j, hscan', hpost', -, -, hbuf', hback'⟩
    cases (hscan.unique hscan').1
    cases hpost.symm.trans hpost'
    rw [hbuf'] at hback'
    exact (hback.unique hback').1
  · intro hsame
    rw [hsame, ← hbuf] at hback
    exact ⟨es, _, items, buf, g', _, hscan, hpost, hret, hnul, hbuf, hback⟩

/-- The second scan reads back what the first has put out exactly when the sizes, the index and the
text of `mtob` fit, and `"%d"` stores no literal as a negative number. -/
theorem mtob_reads_back_iff (P : Platform) (hs : InAlphabet s) (hpar : PrefixBalanced s)
    {g : Globals} (hg : g.it.val = -1) :
    ReadsBack P s g ↔ Fits P s ∧ ∀ v ∈ literals P (seen s), 0 ≤ v.val := by
  obtain ⟨es, hlex, -⟩ := exists_scan P hs
  obtain ⟨items, hpost⟩ := hlex.exists_postfixOf (hpar.mono (seen_prefix_self s))
  rw [← hlex.values_eq]
  by_cases hfits : Fits P s
  · rw [readsBack_iff_values hs hlex hpost hfits hg]
    exact (and_iff_right hfits).symm
  · exact iff_of_false (noText_of_not_fits hs hlex hpost hfits hg).not_readsBack
      fun h => hfits h.1

theorem mtob_reads_back_iff_sample :
    ReadsBack x86 ['(', '2', '-', '3', ')', '*', '4'] .initial ↔
      Fits x86 ['(', '2', '-', '3', ')', '*', '4'] ∧
        ∀ v ∈ literals x86 (seen ['(', '2', '-', '3', ')', '*', '4']), 0 ≤ v.val :=
  mtob_reads_back_iff x86 (by decide) (by decide) rfl

/-- 2147483648 is stored as -2147483648, and the sign that is printed is read as an operator. -/
theorem sign_reads_as_operator :
    InAlphabet ['2', '1', '4', '7', '4', '8', '3', '6', '4', '8'] ∧
      PrefixBalanced ['2', '1', '4', '7', '4', '8', '3', '6', '4', '8'] ∧
      x86.wide 2147483648 = CInt.wrap 2147483648 ∧
      ¬ ReadsBack x86 ['2', '1', '4', '7', '4', '8', '3', '6', '4', '8'] .initial := by
  have hs : InAlphabet ['2', '1', '4', '7', '4', '8', '3', '6', '4', '8'] := by decide
  refine ⟨hs, by decide, by decide, fun h => ?_⟩
  have hdigits : ['2', '1', '4', '7', '4', '8', '3', '6', '4', '8'].all Char.isDigit = true := rfl
  have hlex := Lexes.num (P := x86) (by simp) (List.all_eq_true.mp hdigits) (by simp [NoDigit]) .nil
  have hfits := fits_of_length x86 hs (by decide)
  have hnonneg := (readsBack_iff_values hs hlex rfl hfits rfl).mp h _ (List.mem_singleton.mpr rfl)
  exact absurd hnonneg (by decide)

end StringStack

end GoodCommand.Calculator
