import GoodCommand.Calculator.Runs
import GoodCommand.Scanners.Numerals

/-! `sscanf.c` prints the tokens that the calculators take off the same text, or never ends. -/

namespace GoodCommand.Scanners.SscanfC
open Calculator Fuel Shunting

variable {P : Platform} {s : List Char} {es : List Entry} {st : State}

def line : Entry → List Char
  | .op c => [c, '\n']
  | .num v => printD v ++ ['\n']

def lines (es : List Entry) : List Char := es.flatMap line ++ ['\n']

theorem lines_cons (e : Entry) (es : List Entry) : lines (e :: es) = line e ++ lines es := by
  unfold lines
  rw [List.flatMap_cons, List.append_assoc]

theorem mainBody_eq (hi : st.scandIndex < s.length) :
    mainBody P s st = match lexeme P (s.drop st.scandIndex) with
      | .op c => pure (.next ⟨st.scandIndex + 1, st.out ++ line (.op c)⟩)
      | .blank => pure (.next { st with scandIndex := st.scandIndex + 1 })
      | .num v n => pure (.next ⟨st.scandIndex + n, st.out ++ line (.num v)⟩)
      | .stuck => pure (.next st) := by
  obtain ⟨c, cs, htxt⟩ := List.exists_cons_of_ne_nil (drop_ne_nil hi)
  simp only [mainBody, if_pos hi, htxt, sscanfC, lexeme]
  by_cases hop : isLegalOp c = true
  · simp only [hop, if_true]
    rfl
  · by_cases hsp : c = ' '
    · simp only [hsp, if_true]
      rfl
    · simp only [hop, hsp, if_false]
      cases sscanfD P (c :: cs) <;> rfl

theorem mainBody_done (hi : ¬st.scandIndex < s.length) :
    mainBody P s st = pure (.exit (st.out ++ ['\n'])) := by
  unfold mainBody
  rw [if_neg hi]

theorem run {txt : List Char} (hsplit : Splits P txt es) (htxt : s.drop st.scandIndex = txt) :
    Returns (loop (mainBody P s) st) (st.out ++ lines es) := by
  induction hsplit generalizing st with
  | nil =>
    have hi : ¬st.scandIndex < s.length := not_lt.mpr (List.drop_eq_nil_iff.mp htxt)
    exact returns_loop_exit (returns_of_eq (mainBody_done hi))
  | @blank txt es _ ih =>
    have hbody := mainBody_eq (P := P) (drop_length_of_cons htxt).1
    rw [htxt, lexeme_blank] at hbody
    exact returns_loop_next (returns_of_eq hbody) (ih (drop_succ_of_cons htxt))
  | @op c txt es hc _ ih =>
    have hbody := mainBody_eq (P := P) (drop_length_of_cons htxt).1
    rw [htxt, lexeme_op txt hc] at hbody
    have hrest : Returns (loop (mainBody P s) ⟨st.scandIndex + 1, st.out ++ line (.op c)⟩) _ :=
      ih (drop_succ_of_cons htxt)
    rw [List.append_assoc, ← lines_cons] at hrest
    exact returns_loop_next (returns_of_eq hbody) hrest
  | @num txt v n es hlex _ ih =>
    have hbody := mainBody_eq (P := P) (lt_length_of_num (htxt ▸ hlex))
    rw [htxt, hlex] at hbody
    have hrest : Returns (loop (mainBody P s) ⟨st.scandIndex + n, st.out ++ line (.num v)⟩) _ :=
      ih (by rw [← List.drop_drop, htxt])
    rw [List.append_assoc, ← lines_cons] at hrest
    exact returns_loop_next (returns_of_eq hbody) hrest

/-- At a character that is no token the loop goes round without end. -/
theorem run_stuck (hstuck : ¬∃ es, Splits P (s.drop st.scandIndex) es) :
    Diverges (loop (mainBody P s) st) := by
  induction hn : s.length - st.scandIndex using Nat.strong_induction_on generalizing st with
  | _ n ih =>
    have hi : st.scandIndex < s.length := by
      by_contra hge
      rw [List.drop_eq_nil_of_le (not_lt.mp hge)] at hstuck
      exact hstuck ⟨[], .nil⟩
    -- a turn that takes something off leaves the rest stuck
    have hnext : ∀ st', mainBody P s st = pure (.next st') → st.scandIndex < st'.scandIndex →
        (∀ es, Splits P (s.drop st'.scandIndex) es → ∃ es, Splits P (s.drop st.scandIndex) es) →
        Diverges (loop (mainBody P s) st) := fun st' hbody hlt hsplits =>
      diverges_loop_next hbody (ih _ (by omega) (fun ⟨es, hes⟩ => hstuck (hsplits es hes)) rfl)
    have hbody := mainBody_eq (P := P) hi
    rcases lexeme_cases P (drop_ne_nil hi) with ⟨c, cs, htxt, hc⟩ | ⟨cs, htxt⟩ | ⟨v, m, hlex⟩ | hlex
    · rw [htxt, lexeme_op cs hc] at hbody
      refine hnext _ hbody (Nat.lt_succ_self _) fun es hes => ⟨.op c :: es, ?_⟩
      rw [htxt]
      exact .op hc (drop_succ_of_cons htxt ▸ hes)
    · rw [htxt, lexeme_blank] at hbody
      refine hnext _ hbody (Nat.lt_succ_self _) fun es hes => ⟨es, ?_⟩
      rw [htxt]
      exact .blank (drop_succ_of_cons htxt ▸ hes)
    · obtain ⟨hpos, -, -⟩ := sscanfD_bounds (lexeme_num hlex)
      rw [hlex] at hbody
      refine hnext _ hbody (Nat.lt_add_of_pos_right hpos) fun es hes => ⟨.num v :: es, ?_⟩
      exact .num hlex (by rwa [List.drop_drop])
    · rw [hlex] at hbody
      refine diverges_loop (· = st) (fun t ht => ⟨st, rfl, fun _ => ?_⟩) rfl
      rw [ht, hbody]
      rfl

/-- On any text: what is printed are the lines of its tokens, and a text that cannot be split into
tokens is never reported as an error. -/
theorem main_prints_tokens (P : Platform) (s : List Char) :
    (∀ out, Returns (main P s) out ↔ ∃ es, Splits P s es ∧ out = lines es) ∧
      ((¬∃ es, Splits P s es) → Diverges (main P s)) := by
  have hstuck : (¬∃ es, Splits P s es) → Diverges (main P s) := fun h => run_stuck h
  refine ⟨fun out => ⟨fun hret => ?_, ?_⟩, hstuck⟩
  · by_contra hnone
    by_cases hes : ∃ es, Splits P s es
    · obtain ⟨es, hes⟩ := hes
      exact hnone ⟨es, hes, hret.unique (run hes rfl)⟩
    · exact hret.not_diverges (hstuck hes)
  · rintro ⟨es, hes, rfl⟩
    exact run hes rfl

/-! ### What the calculators take -/

theorem lexeme_num_append {w rest rest' : List Char} {v : CInt} (hrest' : NoDigit rest')
    (h : lexeme P (w ++ rest) = .num v w.length) : lexeme P (w ++ rest') = .num v w.length := by
  have hread := lexeme_num h
  obtain ⟨z, hz, rfl⟩ := sscanfD_read hread
  obtain ⟨bl, sg, ds, rest₀, heq, hbl, hne, hds, hrest, hlen, hval⟩ := scanInt_read hz
  obtain ⟨rfl, rfl⟩ := List.append_inj heq hlen
  have hsign : AsC.SignOf bl sg := by
    rcases hval with ⟨rfl | rfl, -⟩ | ⟨rfl, -⟩
    · refine .inr (.inr ⟨rfl, fun c hc => ?_⟩)
      have hsp := hbl c (List.mem_of_mem_getLast? hc)
      constructor <;> (rintro rfl; cases hsp)
    · exact .inl rfl
    · exact .inr (.inl rfl)
  have hsame := AsC.sscanfD_numeral (P := P) hbl hsign hne hds hrest
  have hread' := AsC.sscanfD_numeral (P := P) hbl hsign hne hds hrest'
  rw [hread] at hsame
  rw [← hsame] at hread'
  obtain ⟨c, cs, hw⟩ : ∃ c cs, bl ++ sg ++ ds = c :: cs :=
    List.exists_cons_of_ne_nil (by simp [hne])
  rw [hw, List.cons_append] at h hread' ⊢
  obtain ⟨hop, hsp⟩ := num_head h
  simp only [lexeme, hop, hsp, hread', Bool.false_eq_true, if_false]

theorem splits_of_takes {i j : ℕ} (h : Takes P s i es j) (hi : i ≤ s.length) :
    Splits P ((s.take j).drop i) es := by
  induction h with
  | refl => simp [Splits.nil]
  | @blank i j cs es hin htxt hrest ih =>
    have hle := hrest.le
    rw [List.drop_take, htxt, show j - i = j - (i + 1) + 1 by omega, List.take_succ_cons]
    rw [List.drop_take, drop_succ_of_cons htxt] at ih
    exact .blank (ih hin.lt_length)
  | @op i j c cs es hin htxt hc hrest ih =>
    have hle := hrest.le
    rw [List.drop_take, htxt, show j - i = j - (i + 1) + 1 by omega, List.take_succ_cons]
    rw [List.drop_take, drop_succ_of_cons htxt] at ih
    exact .op hc (ih hin.lt_length)
  | @num i j n v es hin hlex _ hrest ih =>
    have hle := hrest.le
    obtain ⟨-, hn⟩ := num_le_length hin.lt_length hlex
    have hlen : ((s.drop i).take n).length = n := by
      rw [List.length_take, List.length_drop]
      omega
    have hsplit : (s.take j).drop i = (s.drop i).take n ++ (s.take j).drop (i + n) := by
      rw [List.drop_take, List.drop_take, ← List.drop_drop, ← List.take_add]
      congr 1
      omega
    have hrun : NoDigit ((s.take j).drop (i + n)) := by
      rw [List.drop_take, ← List.drop_drop]
      exact (noDigit_of_num hlex).mono (List.take_prefix _ _)
    have hlong : lexeme P ((s.drop i).take n ++ (s.drop i).drop n) =
        .num v ((s.drop i).take n).length := by rwa [List.take_append_drop, hlen]
    have hshort := lexeme_num_append hrun hlong
    rw [← hsplit, hlen] at hshort
    exact .num hshort (by rw [List.drop_drop]; exact ih hn)

/-- Where the scan of one of the calculators comes to its end, `sscanf.c` prints the tokens that it
has taken off the text up to there: all of it, where its length is an `int`. -/
theorem prints_taken_tokens (h : (∃ g st r, StringStack.mtobStart s g = .ok st ∧
      Trace (StringStack.mtobBody P s) (fun st => taken P (s.drop st.scandIndex)) st es r) ∨
    ∃ r, Trace (DoubleStack.calculateBody P s) (fun st => taken P (s.drop st.scandIndex))
      (DoubleStack.calculateStart s) es r) :
    ∃ j, Returns (main P (s.take j)) (lines es) ∧ ((s.length : ℤ) ≤ intMax → s.take j = s) := by
  obtain ⟨j, htakes, hj⟩ : ∃ j, Takes P s 0 es j ∧ ¬ InScan s j := by
    rcases h with ⟨g, st, r, hst, h⟩ | ⟨r, h⟩
    · rw [← StringStack.mtobStart_index hst]
      exact takes_of_trace _ (fun _ _ => StringStack.mtobBody_next)
        (fun _ _ => StringStack.mtobBody_exit) h
    · exact takes_of_trace (fun st : DoubleStack.Scan => st.scandIndex)
        (fun _ _ => DoubleStack.calculateBody_next) (fun _ _ => DoubleStack.calculateBody_exit) h
  refine ⟨j, run (splits_of_takes htakes (Nat.zero_le _)) rfl, fun hlen => ?_⟩
  rw [inScan_of_le hlen] at hj
  exact List.take_of_length_le (not_lt.mp hj)

theorem prints_taken_tokens_seven : Returns (main x86 ['7']) ['7', '\n', '\n'] := by
  obtain ⟨j, hret, htake⟩ := prints_taken_tokens (P := x86) (s := ['7'])
    (.inr ⟨_, .next (returns_of_eq rfl) (.exit (returns_of_eq rfl))⟩)
  rwa [htake (by decide)] at hret

end GoodCommand.Scanners.SscanfC
