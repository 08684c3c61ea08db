import GoodCommand.Calculator.Expression
import GoodCommand.Calculator.Simulation

/-! Both calculators on written expressions. -/

namespace GoodCommand.Calculator
open Fuel Shunting StringStack

variable {e : Expr} {s : List Char}

theorem Written.ne_nil {p : ℤ} (h : Written p e s) : s ≠ [] := by
  induction h with
  | lit hne _ _ => exact hne
  | paren _ _ => simp
  | bin _ _ _ _ _ => simp
  | spaceLeft _ _ => simp
  | spaceRight _ _ => simp

theorem calOp_char (P : Platform) (o : BinOp) (a b : CInt) (hdiv : o = .div → b.val ≠ 0)
    (h : intMin ≤ o.apply a.val b.val ∧ o.apply a.val b.val ≤ intMax) :
    calOp P o.char b a = .ok ⟨o.apply a.val b.val, h⟩ := by
  cases o with
  | add =>
    have hcomm : b.val + a.val = BinOp.apply .add a.val b.val := Int.add_comm _ _
    simp only [calOp, BinOp.char, Platform.add, hcomm, P.result_ok _ _ _ h]
  | sub => exact P.result_ok '-' a b h
  | mul =>
    have hcomm : b.val * a.val = BinOp.apply .mul a.val b.val := Int.mul_comm _ _
    simp only [calOp, BinOp.char, Platform.mul, hcomm, P.result_ok _ _ _ h]
  | div =>
    show P.div a b = _
    rw [Platform.div, if_neg (hdiv rfl)]
    exact P.result_ok '/' a b h

theorem foldlM_postorder (P : Platform) (h : e.Fits) :
    e.postorder.foldlM (calStep P) [] = .ok [⟨e.value, e.value_bounds h⟩] := by
  have heval : e.tree.evalM id (fun o a b => calOp P o b a) = .ok ⟨e.value, e.value_bounds h⟩ :=
    evalM_tree (calOp_char P) h
  have hfold : e.tree.postorder.foldlM (calStep P) [] =
      e.tree.evalM id (fun o a b => calOp P o b a) >>= fun v => pure [v] :=
    Tree.foldlM_postorder (fun _ _ => rfl) (fun _ _ _ _ => rfl) e.tree []
  rw [e.postorder_tree, heval] at hfold
  exact hfold

def sample : Expr := .bin .mul (.bin .sub (.lit ⟨2, by norm_num [intMax]⟩)
  (.lit ⟨3, by norm_num [intMax]⟩)) (.lit ⟨4, by norm_num [intMax]⟩)

theorem sample_written : Written 1 sample " (2 - 3)*4".toList := by
  have hsub := Written.bin (p := 1) (o := .sub) le_rfl
    (.spaceRight (written_toDigits ⟨2, by norm_num [intMax]⟩))
    (.spaceLeft (written_toDigits ⟨3, by norm_num [intMax]⟩))
  exact .spaceLeft (.bin (o := .mul) (by decide) (.paren hsub) (written_toDigits _))

theorem sample_fits : sample.Fits := by
  simp [sample, Expr.Fits, Expr.value, BinOp.apply, intMin, intMax]

def farOne (n : ℕ) : List Char := List.replicate n ' ' ++ ['1']

def oneExpr : Expr := .lit ⟨1, by norm_num [intMax]⟩

theorem farOne_written (n : ℕ) : Written 1 oneExpr (farOne n) := by
  induction n with
  | zero => exact written_toDigits ⟨1, by norm_num [intMax]⟩
  | succ n ih => exact .spaceLeft ih

theorem length_farOne (n : ℕ) : (farOne n).length = n + 1 := by
  rw [farOne, List.length_append, List.length_replicate, List.length_singleton]

theorem one_fits : oneExpr.Fits := by
  simp [oneExpr, Expr.Fits]

namespace StringStack

theorem farOne_faults (P : Platform) (g : Globals) :
    Faults (mtob P (farOne 1073741822) g) .nullPointer := by
  refine mtob_overflows ?_ g
  rw [strLen_of_le] <;> rw [length_farOne]
  · norm_num
  · norm_num [intMax]

/-- `mtob` writes the post-order of the expression, each token printed canonically and followed by
one space, and leaves its stack empty. -/
theorem mtob_writes_postorder (P : Platform) (h : Written 1 e s) (hlen : s.length < 1073741823)
    {g : Globals} (hg : g.it.val = -1) :
    ∃ buf g', Returns (mtob P s g) (some buf, g') ∧ '\x00' ∈ buf ∧
      cString buf = text e.postorder ∧ g'.it.val = -1 := by
  obtain ⟨es, hlex, hpost⟩ := h.postfixOf P
  have hscan := hlex.splits.scans (by unfold intMax; omega)
  have hfit := textFits_of_le hscan.takes (scanLen_of_le (by unfold intMax; omega)).ge hpost
  obtain ⟨buf, g', hret, hbuf, hnul, hit, -⟩ :=
    mtob_returns (sized_of_length hlen) hscan hpost hfit hg
  exact ⟨buf, g', hret, hnul, hbuf, hit⟩

theorem mtob_writes_postorder_sample :
    ∃ buf g', Returns (mtob x86 " (2 - 3)*4".toList Globals.initial) (some buf, g') ∧
      '\x00' ∈ buf ∧ cString buf = "2 3 - 4 * ".toList ∧ g'.it.val = -1 :=
  mtob_writes_postorder x86 sample_written (by decide) rfl

theorem mtob_writes_nothing :
    Written 1 oneExpr (farOne 1073741822) ∧ Globals.initial.it.val = -1 ∧
      ¬ ∃ buf g', Returns (mtob x86 (farOne 1073741822) Globals.initial) (some buf, g') ∧
        '\x00' ∈ buf ∧ cString buf = text oneExpr.postorder ∧ g'.it.val = -1 := by
  refine ⟨farOne_written _, rfl, ?_⟩
  rintro ⟨buf, g', hret, -⟩
  exact hret.not_faults (farOne_faults x86 .initial)

theorem calculate_eq_value (P : Platform) (h : Written 1 e s) (hlen : s.length < 1073741823)
    (hfit : e.Fits) {g : Globals} (hg : g.it.val = -1) :
    ∃ v g', Returns (calculate P s g) (v, g') ∧ v.val = e.value := by
  obtain ⟨es, hlex, hpost⟩ := h.postfixOf P
  have hscan := hlex.splits.scans (by unfold intMax; omega)
  have htext := textFits_of_le hscan.takes (scanLen_of_le (by unfold intMax; omega)).ge hpost
  have htokens := textTokens_of_nonneg (P := P) e.postorder_nonneg
  have hfold := foldlM_postorder P hfit
  rw [← htokens] at hfold
  obtain ⟨g', hret, -⟩ :=
    calculate_returns (sized_of_length hlen) hscan hpost htext hg hfold
  exact ⟨_, g', hret, rfl⟩

theorem calculate_eq_value_sample :
    ∃ v g', Returns (calculate x86 " (2 - 3)*4".toList Globals.initial) (v, g') ∧ v.val = -4 :=
  calculate_eq_value x86 sample_written (by decide) sample_fits rfl

theorem calculate_without_value :
    Written 1 oneExpr (farOne 1073741822) ∧ oneExpr.Fits ∧ Globals.initial.it.val = -1 ∧
      ¬ ∃ v g', Returns (calculate x86 (farOne 1073741822) Globals.initial) (v, g') ∧
        v.val = oneExpr.value := by
  refine ⟨farOne_written _, one_fits, rfl, ?_⟩
  rintro ⟨v, g', hret, -⟩
  exact hret.not_faults (Faults.bind (farOne_faults x86 .initial))

end StringStack

namespace DoubleStack

/-- `calculate` returns the value of the expression, and pops no stack that is empty. -/
theorem calculate_eq_value_no_empty_pop (P : Platform) (h : Written 1 e s)
    (hlen : (s.length : ℤ) ≤ intMax) (hfit : e.Fits) :
    ∃ v pair, Returns (calculate P s) (v, pair) ∧ v.val = e.value ∧ pair.opst.emptyPops = 0 ∧
      pair.npst.emptyPops = 0 := by
  obtain ⟨es, hlex, hpost⟩ := h.postfixOf P
  obtain ⟨pair, hret, hnums, hops⟩ :=
    evaluate_of_calRun (hlex.splits.scans hlen) hpost (foldlM_postorder P hfit)
  have hpos : 0 < scanLen s := by
    rw [scanLen_of_le hlen]
    exact List.length_pos_of_ne_nil h.ne_nil
  have hcal := calculate_of_evaluate hret (hops.maxSize_pos hpos) (hnums.maxSize_pos hpos)
  obtain ⟨hval, hpop⟩ := hnums.pop
  exact ⟨_, _, hcal, by rw [hval], hops.pops, hpop.pops⟩

theorem calculate_eq_value_no_empty_pop_sample :
    ∃ v pair, Returns (calculate x86 " (2 - 3)*4".toList) (v, pair) ∧ v.val = -4 ∧
      pair.opst.emptyPops = 0 ∧ pair.npst.emptyPops = 0 :=
  calculate_eq_value_no_empty_pop x86 sample_written (by decide) sample_fits

/-- 2^31 characters are too many: `str_len` is negative, and nothing is scanned. -/
theorem calculate_scans_nothing :
    Written 1 oneExpr (farOne 2147483647) ∧ oneExpr.Fits ∧
      ¬ ∃ v pair, Returns (calculate x86 (farOne 2147483647)) (v, pair) ∧ v.val = oneExpr.value ∧
        pair.opst.emptyPops = 0 ∧ pair.npst.emptyPops = 0 := by
  refine ⟨farOne_written _, one_fits, ?_⟩
  rintro ⟨v, pair, hret, -⟩
  have hlen : (strLen (farOne 2147483647)).val = -2147483648 := by
    rw [strLen, length_farOne]
    decide
  exact hret.not_faults (calculate_faults_of_strLen x86 (by omega))

end DoubleStack

end GoodCommand.Calculator
