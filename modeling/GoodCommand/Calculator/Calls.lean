import GoodCommand.Calculator.PostfixText

/-! Calls of `calculate` of `224.c` one after another. The global `it` is set when the program
starts and never again, so what a call leaves on the stack is there for the next. -/

namespace GoodCommand.Calculator
open Shunting

variable {P : Platform} {s : List Char}

/-- The numbers of a text, as `"%d"` stores them. -/
def literals (P : Platform) (s : List Char) : List CInt :=
  ((s.splitOnP fun c => !c.isDigit).filter (· ≠ [])).map fun ds =>
    P.store (Nat.ofDigitChars 10 ds 0)

/-- The operators of a text that come to be applied, with `depth` parentheses open: all but the
parentheses that meet their partner. -/
def leftOps : ℕ → List Char → ℕ
  | depth, [] => depth
  | depth, c :: s =>
    if c = '(' then leftOps (depth + 1) s
    else if c = ')' then if depth = 0 then leftOps 0 s + 1 else leftOps (depth - 1) s
    else if isLegalOp c then leftOps depth s + 1
    else leftOps depth s

/-- Every number but one is an operand. `cal_bstr` applies the sign of a negative number, too. -/
def Consumed (P : Platform) (s : List Char) : Prop :=
  (literals P s).length ≤ leftOps 0 s + (literals P s).countP (fun v => v.val < 0) + 1

theorem literals_cons {c : Char} (hc : c.isDigit = false) (s : List Char) :
    literals P (c :: s) = literals P s := by
  simp [literals, List.splitOnP_cons_eq_if_modifyHead, hc]

theorem literals_digits {ds : List Char} (hne : ds ≠ []) (hds : ∀ d ∈ ds, d.isDigit = true)
    (hs : NoDigit s) :
    literals P (ds ++ s) = P.store (Nat.ofDigitChars 10 ds 0) :: literals P s := by
  have hnot : ∀ d ∈ ds, (!d.isDigit) = false := fun d hd => by simp [hds d hd]
  cases s with
  | nil => simp [literals, List.splitOnP_eq_singleton hnot, hne]
  | cons c s =>
    have hc : c.isDigit = false := hs c (by simp)
    rw [literals_cons hc, literals, List.splitOnP_append_cons_of_forall_mem hnot _ (by simp [hc])]
    simp [literals, hne]

theorem Lexes.values_eq {es : List Entry} (h : Lexes P s es) : values es = literals P s := by
  induction h with
  | nil => rfl
  | blank _ ih => rw [ih, literals_cons (by decide)]
  | op hc _ ih => rw [values_op, ih, literals_cons (not_isDigit_of_isLegalOp hc)]
  | num hne hds hs _ ih => rw [values_num, ih, literals_digits hne hds hs]

theorem leftOps_digits {ds : List Char} (hds : ∀ d ∈ ds, d.isDigit = true) (depth : ℕ)
    (s : List Char) : leftOps depth (ds ++ s) = leftOps depth s := by
  induction ds with
  | nil => rfl
  | cons d ds ih =>
    have hd := hds d (by simp)
    have h1 : d ≠ '(' := ne_of_isDigit hd (by decide)
    have h2 : d ≠ ')' := ne_of_isDigit hd (by decide)
    rw [List.cons_append, leftOps, if_neg h1, if_neg h2, not_isLegalOp_of_isDigit hd]
    exact ih fun c hc => hds c (List.mem_cons_of_mem _ hc)

theorem yardOp_leftOps {c : Char} {K K₁ ops : List Char} (hc : isLegalOp c = true)
    (hop : yardOp P c K = some (ops, K₁)) (s : List Char) :
    ops.length + K₁.length + leftOps (K₁.count '(') s + K.count '(' =
      leftOps (K.count '(') (c :: s) + K.length + K₁.count '(' := by
  rcases isLegalOp_cases hc with harith | rfl | rfl
  · rw [yardOp_arith harith] at hop
    cases hop
    have hsum := takeWhile_length_add_dropWhile (fun q => prio P c ≤ prio P q) K
    rw [count_reduce harith, List.length_cons, leftOps, if_neg harith.ne_left,
      if_neg harith.ne_right, if_pos hc]
    omega
  · rw [yardOp_left] at hop
    cases hop
    rw [leftOps, if_pos rfl]
    simp only [List.count_cons_self, List.length_cons, List.length_nil]
    omega
  · by_cases hmem : '(' ∈ K
    · obtain ⟨A, B, rfl, hA⟩ := exists_split_of_mem hmem
      rw [yardOp_right B hA] at hop
      cases hop
      have hcount : (ops ++ '(' :: K₁).count '(' = K₁.count '(' + 1 := by
        rw [List.count_append, List.count_eq_zero.mpr hA, List.count_cons_self, Nat.zero_add]
      rw [hcount, leftOps, if_neg (by decide), if_pos rfl, if_neg (Nat.succ_ne_zero _)]
      simp only [List.length_append, List.length_cons, Nat.add_sub_cancel]
      omega
    · -- an unmatched `)` is an operator like any other, if nothing is under it
      have hnil : K = [] := by
        by_contra hne
        rw [yardOp_eq_none_iff.mpr ⟨hne, rfl, hmem⟩] at hop
        cases hop
      subst hnil
      cases hop
      simp [leftOps, Nat.add_comm]

theorem Lexes.yardAll_length {es em : List Entry} {K K' : List Char} (h : Lexes P s es)
    (hyard : yardAll P es K = some (em, K')) :
    em.length + K'.length + K.count '(' = leftOps (K.count '(') s + K.length + numbers es := by
  induction h generalizing K em with
  | nil =>
    cases hyard
    simp only [leftOps, List.length_nil, numbers_nil]
    omega
  | blank _ ih =>
    rw [leftOps, if_neg (by decide), if_neg (by decide), if_neg (by decide)]
    exact ih hyard
  | @op c s es hc _ ih =>
    obtain ⟨ops, K₁, em', hop, hes, rfl⟩ := yardAll_op_eq_some.mp hyard
    have hrest := ih hes
    have hstep := yardOp_leftOps hc hop s
    rw [List.length_append, List.length_map, numbers_op]
    omega
  | @num ds s es _ hds _ _ ih =>
    obtain ⟨em', hes, rfl⟩ := yardAll_num_eq_some.mp hyard
    have hrest := ih hes
    rw [leftOps_digits hds, numbers_num, List.length_cons]
    omega

theorem Lexes.postfixOf_length {es items : List Entry} (h : Lexes P s es)
    (hpost : postfixOf P es = some items) :
    items.length = leftOps 0 s + (literals P s).length := by
  simp only [postfixOf, Option.map_eq_some_iff, Prod.exists] at hpost
  obtain ⟨em, K, hyard, rfl⟩ := hpost
  have hlen := h.yardAll_length hyard
  rw [List.length_append, List.length_map, ← h.values_eq]
  simpa [numbers] using hlen

namespace StringStack
open Fuel

theorem numbers_textTokens (es : List Entry) : numbers (textTokens P es) = numbers es := by
  induction es with
  | nil => rfl
  | cons e es ih =>
    simp only [textTokens, List.flatMap_cons, numbers_append] at ih ⊢
    rw [ih]
    cases e with
    | num v =>
      simp only [entryTokens]
      split <;> simp [Nat.add_comm]
    | op c => simp [entryTokens]

theorem length_textTokens (es : List Entry) :
    (textTokens P es).length = es.length + (values es).countP fun v => v.val < 0 := by
  induction es with
  | nil => rfl
  | cons e es ih =>
    simp only [textTokens, List.flatMap_cons, List.length_append, List.length_cons] at ih ⊢
    rw [ih]
    cases e with
    | num v =>
      by_cases hv : v.val < 0
      · simp [entryTokens, hv]
        omega
      · simp [entryTokens, hv]
        omega
    | op c =>
      simp only [entryTokens, values_op, List.length_singleton]
      omega

/-! ### What fits -/

/-- The characters that numbers take when they are printed, each with a space behind it. -/
def printedLen (vs : List CInt) : ℕ := (vs.map fun v => (printD v).length + 1).sum

theorem length_text (es : List Entry) :
    (text es).length + 2 * numbers es = 2 * es.length + printedLen (values es) := by
  induction es with
  | nil => rfl
  | cons e es ih =>
    rw [text_cons, List.length_append, List.length_cons]
    cases e with
    | num v =>
      simp only [entryText, numbers_num, values_num, printedLen, List.map_cons, List.sum_cons,
        List.length_append, List.length_singleton] at ih ⊢
      omega
    | op c =>
      simp only [entryText, numbers_op, values_op, List.length_cons, List.length_nil]
      omega

/-- `mtob` gets its buffers, and its index and its text stay inside them. -/
structure Fits (P : Platform) (s : List Char) : Prop where
  sized : Sized s
  index : ((seen s).length : ℤ) ≤ intMax
  room : 2 * leftOps 0 (seen s) + printedLen (literals P (seen s)) < (scanLen s + 1) * 2

variable {es items : List Entry}

theorem textFits_iff (hlex : Lexes P (seen s) es) (hpost : postfixOf P es = some items) :
    TextFits s items ↔
      2 * leftOps 0 (seen s) + printedLen (literals P (seen s)) < (scanLen s + 1) * 2 := by
  have hlen := length_text items
  rw [numbers, values_postfixOf hpost, hlex.values_eq, hlex.postfixOf_length hpost] at hlen
  unfold TextFits
  omega

theorem printedLen_le (h : Lexes P s es) (depth : ℕ) :
    2 * leftOps depth s + printedLen (literals P s) ≤ 2 * (s.length + depth) := by
  induction h generalizing depth with
  | nil => simp [leftOps, literals, printedLen]
  | @blank s _ _ ih =>
    have hrest := ih depth
    rw [leftOps, if_neg (by decide), if_neg (by decide), if_neg (by decide),
      literals_cons (by decide), List.length_cons]
    omega
  | @op c s es hc _ ih =>
    have hsame := ih depth
    have hopen := ih (depth + 1)
    have hclose := ih (depth - 1)
    rw [literals_cons (not_isDigit_of_isLegalOp hc), List.length_cons, leftOps]
    split_ifs with hleft hright hzero
    · omega
    · subst hzero
      omega
    · omega
    · omega
  | @num ds s es hne hds hrest _ ih =>
    have htail := ih depth
    obtain ⟨-, -, hlen⟩ := sscanfD_bounds (lexeme_num (lexeme_digits (P := P) hne hds hrest))
    rw [leftOps_digits hds, literals_digits hne hds hrest, List.length_append]
    simp only [printedLen, List.map_cons, List.sum_cons] at htail ⊢
    omega

theorem fits_of_length (P : Platform) (hs : InAlphabet s) (h : s.length < 1073741823) :
    Fits P s := by
  have hmax : (s.length : ℤ) ≤ intMax := by unfold intMax; omega
  obtain ⟨es, hlex⟩ := exists_lexes P hs
  have hroom := printedLen_le hlex 0
  refine ⟨sized_of_length h, ?_, ?_⟩
  · rw [seen_of_le hmax]
    exact hmax
  · rw [seen_of_le hmax, scanLen_of_le hmax]
    omega

theorem noText_of_not_fits (hs : InAlphabet s) (hlex : Lexes P (seen s) es)
    (hpost : postfixOf P es = some items) (h : ¬ Fits P s) {g : Globals} (hg : g.it.val = -1) :
    NoText P s g := by
  by_cases hsize : Sized s
  · obtain ⟨fs, hlex', hscan, hover⟩ := exists_scan P hs
    cases hlex.splits.unique hlex'.splits
    by_cases hindex : ((seen s).length : ℤ) ≤ intMax
    · have hfit : ¬ TextFits s items := fun hfit =>
        h ⟨hsize, hindex, (textFits_iff hlex hpost).mp hfit⟩
      exact noText_of_overrun hsize (hscan hindex) hpost hfit hg
    · exact noText_of_overflows hsize (hover hindex) hg
  · exact noText_of_not_sized hsize hg

/-- A call that returns has got to the end of its scan, and of its postfix sequence. -/
theorem fits_of_returns (hs : InAlphabet s) {g : Globals} (hg : g.it.val = -1)
    {r : CInt × Globals} (hret : Returns (calculate P s g) r) :
    ∃ es items, Lexes P (seen s) es ∧ postfixOf P es = some items ∧ Fits P s := by
  obtain ⟨es, hlex, hscan, hover⟩ := exists_scan P hs
  have hsize : Sized s := by
    by_contra hsize
    obtain ⟨f, hf⟩ := (noText_of_not_sized (P := P) hsize hg).calculate_faults
    exact hret.not_faults hf
  have hindex : ((seen s).length : ℤ) ≤ intMax := by
    by_contra hindex
    obtain ⟨f, hf⟩ := (noText_of_overflows hsize (hover hindex) hg).calculate_faults
    exact hret.not_faults hf
  cases hpost : postfixOf P es with
  | none => exact absurd (Faults.bind (mtob_faults hsize (hscan hindex) hpost hg)) hret.not_faults
  | some items =>
    refine ⟨es, items, hlex, hpost, ?_⟩
    by_contra hfit
    obtain ⟨f, hf⟩ := (noText_of_not_fits hs hlex hpost hfit hg).calculate_faults
    exact hret.not_faults hf

theorem Fits.scans (h : Fits P s) (hs : InAlphabet s) (hlex : Lexes P (seen s) es) :
    Scans P s es (seen s).length := by
  obtain ⟨fs, hlex', hscan, -⟩ := exists_scan P hs
  cases hlex.splits.unique hlex'.splits
  exact hscan h.index

theorem calculate_of_returns (hs : InAlphabet s) {g g' : Globals} (hg : g.it.val = -1) {v : CInt}
    (hret : Returns (calculate P s g) (v, g')) :
    (g'.it.val = -1 ↔ Consumed P (seen s)) ∧
      ∃ g₀, Returns (calculate P s Globals.initial) (v, g₀) := by
  obtain ⟨es, items, hlex, hpost, hfits⟩ := fits_of_returns hs hg hret
  have hsize := hfits.sized
  have hscan := hfits.scans hs hlex
  have hfit := (textFits_iff hlex hpost).mpr hfits.room
  have hlen := hlex.postfixOf_length hpost
  by_cases hnil : items = []
  · subst hnil
    obtain ⟨g₁, hret₁, hit⟩ := calculate_returns_nil hsize hscan hpost hg
    obtain ⟨g₀, hret₀, -⟩ := calculate_returns_nil hsize hscan hpost (g := Globals.initial) rfl
    cases hret.unique hret₁
    refine ⟨⟨fun _ => ?_, fun _ => hit⟩, g₀, hret₀⟩
    rw [List.length_nil] at hlen
    unfold Consumed
    omega
  · cases hfold : (textTokens P items).foldlM (calStep P) [] with
    | error e => exact absurd (calculate_faults hsize hscan hpost hfit hg hfold) hret.not_faults
    | ok V =>
      have htokens := foldlM_calStep_length hfold
      rw [length_textTokens, numbers_textTokens, values_postfixOf hpost, hlex.values_eq, numbers,
        values_postfixOf hpost, hlex.values_eq] at htokens
      cases V with
      | nil =>
        have hne : textTokens P items ≠ [] := by
          intro h0
          have h1 := congrArg List.length h0
          rw [length_textTokens, List.length_nil] at h1
          exact hnil (List.length_eq_zero_iff.mp (by omega))
        exact absurd rfl (foldlM_calStep_ne_nil hne hfold)
      | cons w V =>
        obtain ⟨g₁, hret₁, hit⟩ := calculate_returns hsize hscan hpost hfit hg hfold
        obtain ⟨g₀, hret₀, -⟩ :=
          calculate_returns hsize hscan hpost (g := Globals.initial) hfit rfl hfold
        cases hret.unique hret₁
        refine ⟨?_, g₀, hret₀⟩
        simp only [List.length_cons, List.length_nil] at htokens
        unfold Consumed
        omega

/-- `Calls P g ss rs`: the calls on the texts `ss`, from the globals `g` on, all return; `rs` has
what each returns and the globals it leaves. -/
inductive Calls (P : Platform) : Globals → List (List Char) → List (CInt × Globals) → Prop
  | nil (g : Globals) : Calls P g [] []
  | cons {g g' : Globals} {s : List Char} {ss : List (List Char)} {v : CInt}
      {rs : List (CInt × Globals)} : Returns (calculate P s g) (v, g') → Calls P g' ss rs →
      Calls P g (s :: ss) ((v, g') :: rs)

def Independent (P : Platform) (ss : List (List Char)) (rs : List (CInt × Globals)) : Prop :=
  (∀ r ∈ rs, r.2.it.val = -1) ∧
    List.Forall₂ (fun s r => ∃ g, Returns (calculate P s Globals.initial) (r.1, g)) ss rs

theorem Calls.independent_iff {g : Globals} {ss : List (List Char)} {rs : List (CInt × Globals)}
    (h : Calls P g ss rs) (hg : g.it.val = -1) (hss : ∀ s ∈ ss, InAlphabet s) :
    Independent P ss rs ↔ ∀ s ∈ ss, Consumed P (seen s) := by
  induction h with
  | nil => simp [Independent]
  | @cons g g' s ss v rs hret hcalls ih =>
    obtain ⟨hiff, hfresh⟩ := calculate_of_returns (hss s (by simp)) hg hret
    have hrest : g'.it.val = -1 → (Independent P ss rs ↔ ∀ s ∈ ss, Consumed P (seen s)) :=
      fun hg' => ih hg' fun t ht => hss t (List.mem_cons_of_mem _ ht)
    constructor
    · rintro ⟨hit, hvals⟩
      have hg' : g'.it.val = -1 := hit (v, g') (by simp)
      have hind : Independent P ss rs :=
        ⟨fun r hr => hit r (List.mem_cons_of_mem _ hr), (List.forall₂_cons.mp hvals).2⟩
      intro t ht
      rcases List.mem_cons.mp ht with rfl | ht
      · exact hiff.mp hg'
      · exact (hrest hg').mp hind t ht
    · intro hcond
      have hg' : g'.it.val = -1 := hiff.mpr (hcond s (by simp))
      obtain ⟨hit, hvals⟩ := (hrest hg').mpr fun t ht => hcond t (List.mem_cons_of_mem _ ht)
      refine ⟨fun r hr => ?_, .cons hfresh hvals⟩
      rcases List.mem_cons.mp hr with rfl | hr
      · exact hg'
      · exact hit r hr

/-- In a program that calls `calculate` again and again, no call leaks into the next exactly when
on every text all numbers but one are operands. -/
theorem calls_leave_stack_empty_iff (P : Platform) {ss : List (List Char)}
    {rs : List (CInt × Globals)} (hss : ∀ s ∈ ss, InAlphabet s)
    (h : Calls P Globals.initial ss rs) :
    Independent P ss rs ↔ ∀ s ∈ ss, Consumed P (seen s) := h.independent_iff rfl hss

theorem calls_leave_stack_empty_iff_sample :
    ∃ rs, Calls x86 Globals.initial [['1', '+', '2'], ['(', '3', ')']] rs ∧
      (Independent x86 [['1', '+', '2'], ['(', '3', ')']] rs ↔
        ∀ s ∈ [['1', '+', '2'], ['(', '3', ')']], Consumed x86 (seen s)) := by
  have h1 : Returns (calculate x86 ['1', '+', '2'] Globals.initial)
      (⟨3, by decide⟩, ⟨[], minusOne, CInt.wrap 6, 0⟩) :=
    ⟨10, fun n hn => by obtain ⟨k, rfl⟩ : ∃ k, n = k + 10 := ⟨n - 10, by omega⟩; rfl⟩
  have h2 : Returns (calculate x86 ['(', '3', ')'] ⟨[], minusOne, CInt.wrap 6, 0⟩)
      (⟨3, by decide⟩, ⟨[], minusOne, CInt.wrap 2, 0⟩) :=
    ⟨10, fun n hn => by obtain ⟨k, rfl⟩ : ∃ k, n = k + 10 := ⟨n - 10, by omega⟩; rfl⟩
  have hcalls := Calls.cons h1 (.cons h2 (.nil _))
  refine ⟨_, hcalls, calls_leave_stack_empty_iff x86 ?_ hcalls⟩
  simp only [List.forall_mem_cons, List.not_mem_nil, false_implies, implies_true, and_true]
  decide

theorem numbers_side_by_side_stay :
    InAlphabet ['1', ' ', '2'] ∧
      ∃ v g, Calls x86 Globals.initial [['1', ' ', '2']] [(v, g)] ∧ g.it.val = 0 ∧
        ¬ Independent x86 [['1', ' ', '2']] [(v, g)] := by
  refine ⟨by decide, ⟨2, by decide⟩, ⟨[], CInt.zero, CInt.wrap 4, 0⟩, .cons ?_ (.nil _), rfl, ?_⟩
  · exact ⟨10, fun n hn => by obtain ⟨k, rfl⟩ : ∃ k, n = k + 10 := ⟨n - 10, by omega⟩; rfl⟩
  · rintro ⟨hit, -⟩
    exact absurd (hit (⟨2, by decide⟩, ⟨[], CInt.zero, CInt.wrap 4, 0⟩) (by simp)) (by decide)

end StringStack

end GoodCommand.Calculator
