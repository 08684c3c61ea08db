import GoodCommand.Calculator.Calls
import GoodCommand.Calculator.Correctness

/-! Both calculators on texts that need not be expressions. -/

namespace GoodCommand.Calculator
open Fuel Shunting StringStack

variable {P : Platform} {s : List Char}

/-- Every prefix has at least as many `(` as `)`. -/
def PrefixBalanced (s : List Char) : Prop := ∀ pre, pre <+: s → pre.count ')' ≤ pre.count '('

instance (s : List Char) : Decidable (PrefixBalanced s) :=
  decidable_of_iff (∀ pre ∈ s.inits, pre.count ')' ≤ pre.count '(') (by
    simp only [PrefixBalanced, List.mem_inits])

theorem PrefixBalanced.mono {t : List Char} (h : PrefixBalanced s) (ht : t <+: s) :
    PrefixBalanced t := fun pre hpre => h pre (hpre.trans ht)

/-- Every literal is at most `INT_MAX`, and so is every run of digits within one. -/
def LiteralsFit (s : List Char) : Prop :=
  ∀ ds, ds <:+: s → (∀ d ∈ ds, d.isDigit = true) → (Nat.ofDigitChars 10 ds 0 : ℤ) ≤ intMax

theorem LiteralsFit.mono {t : List Char} (h : LiteralsFit s) (ht : t <+: s) :
    LiteralsFit t := fun ds hds => h ds (hds.trans ht.isInfix)

theorem literalsFit_of_length (h : s.length < 10) : LiteralsFit s := by
  intro ds hds hdigits
  have hlt := ofDigitChars_lt hdigits
  have hle : 10 ^ ds.length ≤ 10 ^ 9 :=
    Nat.pow_le_pow_right (by decide) (by have := hds.length_le; omega)
  unfold intMax
  omega

theorem count_digits {ds : List Char} (hds : ∀ d ∈ ds, d.isDigit = true) {c : Char}
    (hc : c.isDigit = false) : ds.count c = 0 :=
  List.count_eq_zero.mpr fun hmem => absurd (hds c hmem) (by simp [hc])

theorem yardOp_balanced {c : Char} (hc : isLegalOp c = true) {K : List Char}
    (hK : ∀ pre, pre <+: c :: s → pre.count ')' ≤ pre.count '(' + K.count '(') :
    ∃ em K', yardOp P c K = some (em, K') ∧
      (∀ pre, pre <+: s → pre.count ')' ≤ pre.count '(' + K'.count '(') ∧ K' ⊆ c :: K ∧
      (')' ∉ K → ')' ∉ K') := by
  have hpre : ∀ pre, pre <+: s → (c :: pre).count ')' ≤ (c :: pre).count '(' + K.count '(' :=
    fun pre hpre => hK (c :: pre) (List.prefix_cons_inj _ |>.mpr hpre)
  rcases isLegalOp_cases hc with harith | rfl | rfl
  · have h1 := harith.ne_left
    have h2 := harith.ne_right
    have hyard := yardOp_arith (P := P) harith K
    refine ⟨_, _, hyard, fun pre hp => ?_, (yardOp_subset hyard).2, fun hnot hmem => ?_⟩
    · rw [count_reduce harith]
      simpa [List.count_cons_of_ne h1, List.count_cons_of_ne h2] using hpre pre hp
    · rcases List.mem_cons.mp hmem with h0 | hmem
      · exact h2 h0.symm
      · exact hnot ((List.dropWhile_sublist _).subset hmem)
  · have hyard := yardOp_left P K
    refine ⟨_, _, hyard, fun pre hp => ?_, (yardOp_subset hyard).2, fun hnot => by simpa using hnot⟩
    have hle := hpre pre hp
    simp only [List.count_cons, beq_self_eq_true, if_true] at hle ⊢
    simp at hle
    omega
  · have hmem : '(' ∈ K := by
      have hle := hpre [] (List.nil_prefix)
      simp at hle
      exact hle
    obtain ⟨A, B, rfl, hA⟩ := exists_split_of_mem hmem
    have hyard := yardOp_right (P := P) B hA
    refine ⟨A, B, hyard, fun pre hp => ?_, (yardOp_subset hyard).2, fun hnot hB => ?_⟩
    · have hle := hpre pre hp
      simp [List.count_append, List.count_eq_zero.mpr hA] at hle
      omega
    · exact hnot (by simp [hB])

theorem count_append_digits {ds : List Char} (hds : ∀ d ∈ ds, d.isDigit = true) {K : List Char}
    (hK : ∀ pre, pre <+: ds ++ s → pre.count ')' ≤ pre.count '(' + K.count '(') :
    ∀ pre, pre <+: s → pre.count ')' ≤ pre.count '(' + K.count '(' := by
  intro pre hpre
  have hle := hK (ds ++ pre) ((List.prefix_append_right_inj ds).mpr hpre)
  simpa [List.count_append, count_digits hds (c := ')') (by decide),
    count_digits hds (c := '(') (by decide)] using hle

theorem Lexes.exists_yardAll {es : List Entry} (h : Lexes P s es) {K : List Char}
    (hK : ∀ pre, pre <+: s → pre.count ')' ≤ pre.count '(' + K.count '(') :
    ∃ r, yardAll P es K = some r := by
  induction h generalizing K with
  | nil => exact ⟨_, rfl⟩
  | blank _ ih =>
    refine ih fun pre hpre => ?_
    simpa using hK (' ' :: pre) (List.prefix_cons_inj _ |>.mpr hpre)
  | num _ hds _ _ ih =>
    obtain ⟨r, hr⟩ := ih (count_append_digits hds hK)
    exact ⟨_, by simp only [yardAll, yardEntry, hr, Option.bind_eq_bind, Option.bind_some]; rfl⟩
  | op hc _ ih =>
    obtain ⟨em, K', hop, hK', -⟩ := yardOp_balanced (P := P) hc hK
    obtain ⟨r, hr⟩ := ih hK'
    exact ⟨_, by simp only [yardAll, yardEntry, hop, hr, Option.bind_eq_bind, Option.bind_some,
      Option.map_some]; rfl⟩

theorem Lexes.exists_postfixOf {es : List Entry} (h : Lexes P s es) (hs : PrefixBalanced s) :
    ∃ items, postfixOf P es = some items := by
  obtain ⟨r, hr⟩ := h.exists_yardAll (K := []) (by simpa [PrefixBalanced] using hs)
  exact ⟨_, by rw [postfixOf, hr, Option.map_some]⟩

theorem Lexes.nonneg {es : List Entry} (h : Lexes P s es) (hs : LiteralsFit s) :
    ∀ v, Item.num v ∈ es → 0 ≤ v.val := by
  induction h with
  | nil => simp
  | blank _ ih =>
    exact ih fun ds hds => hs ds (hds.trans (List.suffix_cons _ _).isInfix)
  | op _ _ ih =>
    have hrest := ih fun ds hds => hs ds (hds.trans (List.suffix_cons _ _).isInfix)
    intro v hv
    exact hrest v (by simpa using hv)
  | @num ds s es _ hds _ _ ih =>
    have hrest := ih fun ds' hds' => hs ds' (hds'.trans (List.suffix_append _ _).isInfix)
    intro v hv
    rcases List.mem_cons.mp hv with heq | hv
    · have hfit := hs ds (List.prefix_append _ _).isInfix hds
      have hr : intMin ≤ (Nat.ofDigitChars 10 ds 0 : ℤ) ∧ (Nat.ofDigitChars 10 ds 0 : ℤ) ≤ intMax :=
        ⟨by unfold intMin; omega, hfit⟩
      rw [Item.num.inj heq, Platform.store, CInt.ofInt?_eq_some hr]
      exact Int.natCast_nonneg _
    · exact hrest v hv

/-! ### The strict platform -/

theorem calOp_of_strict {c : Char} {a b r : CInt} (h : calOp P.strict c a b = .ok r) :
    calOp P c a b = .ok r := by
  unfold calOp at h ⊢
  split at h
  · exact P.result_of_strict h
  · exact P.result_of_strict h
  · exact P.result_of_strict h
  · unfold Platform.div at h ⊢
    split at h
    · cases h
    · next hb => exact (if_neg hb).trans (P.result_of_strict h)
  · exact h

theorem calRun_of_strict {items : List Entry} {V V' : List CInt}
    (h : items.foldlM (calStep P.strict) V = .ok V') : items.foldlM (calStep P) V = .ok V' := by
  induction items generalizing V with
  | nil => exact h
  | cons e items ih =>
    obtain ⟨V₁, hstep, hrest⟩ := foldlM_cons_ok h
    have hsame : calStep P V e = .ok V₁ := by
      cases e with
      | num v => exact hstep
      | op c =>
        obtain ⟨a1, a2, W, r, rfl, hop, rfl⟩ := calStep_op_ok hstep
        simp only [calStep, calOp_of_strict hop]
        rfl
    rw [List.foldlM_cons, hsame]
    exact ih hrest

/-- The two calculators agree on every text whose evaluation by the one pass of
`double_stack_224.c` pops no number that is not there and meets no undefined operation, where
`str_len` counts a character, and the sizes, the index and the text of `mtob` fit. Where it counts
none, `calculate` of `double_stack_224.c` frees two pointers it never set. -/
theorem calculators_agree_iff (P : Platform) (hs : InAlphabet s) (hpar : PrefixBalanced s)
    (hlit : LiteralsFit s) {pair : DoubleStack.Pair}
    (hrun : Returns (DoubleStack.evaluate P.strict s) pair) (hpops : pair.npst.emptyPops = 0)
    {g : Globals} (hg : g.it.val = -1) :
    (∃ v g' st, Returns (calculate P s g) (v, g') ∧ Returns (DoubleStack.calculate P s) (v, st)) ↔
      0 < (strLen s).val ∧ Fits P s := by
  constructor
  · rintro ⟨v, g', st, hss, hds⟩
    obtain ⟨-, -, -, -, hfits⟩ := fits_of_returns hs hg hss
    refine ⟨?_, hfits⟩
    by_contra hpos
    exact hds.not_faults (DoubleStack.calculate_faults_of_strLen P (not_lt.mp hpos))
  rintro ⟨hpos, hfits⟩
  obtain ⟨es, hlex, -⟩ := exists_scan P hs
  have hscan := hfits.scans hs hlex
  obtain ⟨items, hpost⟩ := hlex.exists_postfixOf (hpar.mono (seen_prefix_self s))
  have hpost' : postfixOf P.strict es = some items := by
    rw [postfixOf, Platform.strict, yardAll_withUndef]
    exact hpost
  obtain ⟨es', hlex', hscan', -⟩ := exists_scan P.strict hs
  cases (hlex.withUndef _).splits.unique hlex'.splits
  -- what the strict run did to the number stack, `cal_bstr` does too
  have hfollows := DoubleStack.evaluate_follows (hscan' hfits.index) hpost'
  obtain ⟨npst, hnum⟩ : ∃ npst, items.foldlM (DoubleStack.numStep P.strict)
      (DoubleStack.stackInit (strLen s)) = .ok npst := by
    cases hfold : items.foldlM (DoubleStack.numStep P.strict)
        (DoubleStack.stackInit (strLen s)) with
    | ok npst => exact ⟨npst, rfl⟩
    | error e => exact absurd (hfollows.error hfold) hrun.not_faults
  obtain ⟨pair', hret, hpair, -⟩ := hfollows.ok hnum
  obtain rfl := hrun.unique hret
  obtain rfl := hpair
  obtain ⟨V, hcal, -⟩ := DoubleStack.calRun_of_numRun (DoubleStack.holds_init (strLen s))
    (DoubleStack.numbers_le_of_scans hscan hpost) hnum hpops
  have hcal' := calRun_of_strict hcal
  obtain ⟨pair', hret', hV, hops⟩ := DoubleStack.evaluate_of_calRun hscan hpost hcal'
  have hlen : 0 < scanLen s := inScan_iff.mp hpos
  have hds := DoubleStack.calculate_of_evaluate hret' (hops.maxSize_pos hlen) (hV.maxSize_pos hlen)
  cases V with
  | nil =>
    have hnil : items = [] := by
      by_contra hitems
      exact foldlM_calStep_ne_nil hitems hcal' rfl
    obtain ⟨g', hss, -⟩ := calculate_returns_nil hfits.sized hscan (hnil ▸ hpost) hg
    have hzero : (DoubleStack.stackPop pair'.npst).1 = CInt.zero :=
      (DoubleStack.stackPop_nil hV.items_eq).1
    exact ⟨_, g', _, hss, hzero ▸ hds⟩
  | cons v V =>
    have hnonneg : ∀ v, Item.num v ∈ items → 0 ≤ v.val := by
      intro v hv
      rw [← mem_values, values_postfixOf hpost, mem_values] at hv
      exact hlex.nonneg (hlit.mono (seen_prefix_self s)) v hv
    have htokens := textTokens_of_nonneg (P := P) hnonneg
    have htext := (textFits_iff hlex hpost).mpr hfits.room
    obtain ⟨g', hss, -⟩ :=
      calculate_returns hfits.sized hscan hpost htext hg (htokens.symm ▸ hcal')
    have hval : (DoubleStack.stackPop pair'.npst).1 = v := hV.pop.1
    exact ⟨_, g', _, hss, hval ▸ hds⟩

/-- A malformed text: an open parenthesis that stays open, numbers side by side, and an operator
after its operands. -/
def unfinished : List Char := ['(', '4', ' ', '2', ' ', '1', '-']

theorem calculators_agree_iff_sample :
    (∃ v g' st, Returns (calculate x86 unfinished Globals.initial) (v, g') ∧
      Returns (DoubleStack.calculate x86 unfinished) (v, st)) ↔
        0 < (strLen unfinished).val ∧ Fits x86 unfinished :=
  calculators_agree_iff x86 (by decide) (by decide) (literalsFit_of_length (by decide))
    (show Returns (DoubleStack.evaluate x86.strict unfinished)
        ⟨⟨[], strLen unfinished, 0, 0, by decide⟩,
          ⟨[CInt.zero], strLen unfinished, 0, 0, by decide⟩⟩ from
      ⟨10, fun n hn => by obtain ⟨k, rfl⟩ : ∃ k, n = k + 10 := ⟨n - 10, by omega⟩; rfl⟩) rfl rfl

/-- On the empty text nothing is popped and nothing is computed, and yet no value is returned. -/
theorem calculators_disagree_on_empty :
    InAlphabet [] ∧ PrefixBalanced [] ∧ LiteralsFit [] ∧
      (∃ pair, Returns (DoubleStack.evaluate x86.strict []) pair ∧ pair.npst.emptyPops = 0) ∧
      Globals.initial.it.val = -1 ∧
      ¬ ∃ v g' st, Returns (calculate x86 [] Globals.initial) (v, g') ∧
        Returns (DoubleStack.calculate x86 []) (v, st) := by
  refine ⟨by decide, by decide, literalsFit_of_length (by decide),
    ⟨⟨DoubleStack.stackInit CInt.zero, DoubleStack.stackInit CInt.zero⟩, ?_, rfl⟩, rfl, ?_⟩
  · exact ⟨1, fun n hn => by obtain ⟨k, rfl⟩ : ∃ k, n = k + 1 := ⟨n - 1, by omega⟩; rfl⟩
  · rintro ⟨v, g', st, -, hret⟩
    exact hret.not_faults (DoubleStack.calculate_faults_of_strLen x86 (by decide))

end GoodCommand.Calculator
