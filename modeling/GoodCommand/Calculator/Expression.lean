import GoodCommand.Calculator.Yard

/-! Arithmetic expressions, the ways to write them, and their values. -/

namespace GoodCommand.Calculator
open Shunting

inductive BinOp where
  | add
  | sub
  | mul
  | div
  deriving DecidableEq

namespace BinOp

def char : BinOp → Char
  | add => '+'
  | sub => '-'
  | mul => '*'
  | div => '/'

def prec : BinOp → ℤ
  | add => 1
  | sub => 1
  | mul => 2
  | div => 2

def apply : BinOp → ℤ → ℤ → ℤ
  | add, a, b => a + b
  | sub, a, b => a - b
  | mul, a, b => a * b
  | div, a, b => a.tdiv b

theorem isLegalOp_char (o : BinOp) : isLegalOp o.char = true := by cases o <;> decide

theorem prio_char (P : Platform) (o : BinOp) : prio P o.char = o.prec := by
  cases o <;> simp [char, prec]

theorem entryTok_char (o : BinOp) : entryTok (.op o.char) = .op o.char := by cases o <;> rfl

end BinOp

abbrev Literal := {n : ℕ // (n : ℤ) ≤ intMax}

def Literal.toCInt (n : Literal) : CInt := ⟨n.val, by unfold intMin; omega, n.property⟩

inductive Expr where
  | lit (n : Literal)
  | bin (o : BinOp) (l r : Expr)

namespace Expr

def value : Expr → ℤ
  | lit n => n.val
  | bin o l r => o.apply l.value r.value

def Fits : Expr → Prop
  | lit _ => True
  | bin o l r => l.Fits ∧ r.Fits ∧ (o = .div → r.value ≠ 0) ∧
      intMin ≤ o.apply l.value r.value ∧ o.apply l.value r.value ≤ intMax

def postorder : Expr → List Entry
  | lit n => [.num (Literal.toCInt n)]
  | bin o l r => l.postorder ++ r.postorder ++ [.op o.char]

def tree : Expr → Tree CInt Char
  | lit n => .leaf (Literal.toCInt n)
  | bin o l r => .node o.char l.tree r.tree

theorem postorder_tree (e : Expr) : e.tree.postorder = e.postorder := by
  induction e with
  | lit n => rfl
  | bin o l r ihl ihr => simp only [tree, Tree.postorder, postorder, ihl, ihr]

theorem postorder_nonneg (e : Expr) : ∀ v, Item.num v ∈ e.postorder → 0 ≤ v.val := by
  induction e with
  | lit n =>
    intro v hv
    simp only [postorder, List.mem_singleton, Item.num.injEq] at hv
    rw [hv]
    exact Int.natCast_nonneg _
  | bin o l r ihl ihr =>
    intro v hv
    simp only [postorder, List.mem_append, List.mem_singleton, reduceCtorEq, or_false] at hv
    exact hv.elim (ihl v) (ihr v)

theorem value_bounds {e : Expr} (h : e.Fits) : intMin ≤ e.value ∧ e.value ≤ intMax := by
  cases e with
  | lit n => exact (Literal.toCInt n).property
  | bin o l r => exact h.2.2.2

end Expr

/-- `Written p e s`: the string `s` is a way to write `e` without an operator of precedence below
`p` outside parentheses. Any number of spaces may stand around every token, literals may have
leading zeros, and parentheses may be redundant. -/
inductive Written : ℤ → Expr → List Char → Prop
  | lit {p : ℤ} {n : Literal} {ds : List Char} : ds ≠ [] → (∀ d ∈ ds, d.isDigit = true) →
      Nat.ofDigitChars 10 ds 0 = n.val → Written p (.lit n) ds
  | paren {p : ℤ} {e : Expr} {s : List Char} : Written 1 e s → Written p e ('(' :: s ++ [')'])
  | bin {p : ℤ} {o : BinOp} {l r : Expr} {s t : List Char} : p ≤ o.prec → Written o.prec l s →
      Written (o.prec + 1) r t → Written p (.bin o l r) (s ++ o.char :: t)
  | spaceLeft {p : ℤ} {e : Expr} {s : List Char} : Written p e s → Written p e (' ' :: s)
  | spaceRight {p : ℤ} {e : Expr} {s : List Char} : Written p e s → Written p e (s ++ [' '])

theorem noDigit_cons {c : Char} (s : List Char) (h : c.isDigit = false) : NoDigit (c :: s) := by
  simp [NoDigit, h]

theorem Written.tokens (P : Platform) {p : ℤ} {e : Expr} {s : List Char} (h : Written p e s) :
    ∃ es, Syn (table P) p e.tree (es.map entryTok) ∧
      ∀ rest fs, NoDigit rest → Lexes P rest fs → Lexes P (s ++ rest) (es ++ fs) := by
  induction h with
  | @lit p n ds hne hds hval =>
    refine ⟨[.num (Literal.toCInt n)], .leaf p _, fun rest fs hrest hlex => ?_⟩
    have hstore : P.store (Nat.ofDigitChars 10 ds 0) = Literal.toCInt n := by
      rw [hval]
      exact P.store_val (Literal.toCInt n)
    exact hstore ▸ Lexes.num hne hds hrest hlex
  | @paren p e s _ ih =>
    obtain ⟨es, hsyn, hes⟩ := ih
    refine ⟨.op '(' :: es ++ [.op ')'], ?_, fun rest fs hrest hlex => ?_⟩
    · have hlt : (table P).prec (table P).left < 1 := by simp [table]
      simpa [entryTok] using Syn.paren (p := p) hlt hsyn
    · have hright := Lexes.op (c := ')') (by decide) hlex
      have hbody := hes (')' :: rest) _ (noDigit_cons _ (by decide)) hright
      simpa using Lexes.op (c := '(') (by decide) hbody
  | @bin p o l r s t hp _ _ ihl ihr =>
    obtain ⟨ls, hlsyn, hls⟩ := ihl
    obtain ⟨rs, hrsyn, hrs⟩ := ihr
    refine ⟨ls ++ .op o.char :: rs, ?_, fun rest fs hrest hlex => ?_⟩
    · have hprec : (table P).prec o.char = o.prec := o.prio_char P
      rw [List.map_append, List.map_cons, o.entryTok_char]
      exact .node (hprec ▸ hp) (hprec ▸ hlsyn) (hprec ▸ hrsyn)
    · have hop := Lexes.op o.isLegalOp_char (hrs rest fs hrest hlex)
      have hno := noDigit_cons (t ++ rest) (not_isDigit_of_isLegalOp o.isLegalOp_char)
      simpa using hls _ _ hno hop
  | spaceLeft _ ih =>
    obtain ⟨es, hsyn, hes⟩ := ih
    exact ⟨es, hsyn, fun rest fs hrest hlex => .blank (hes rest fs hrest hlex)⟩
  | spaceRight _ ih =>
    obtain ⟨es, hsyn, hes⟩ := ih
    refine ⟨es, hsyn, fun rest fs hrest hlex => ?_⟩
    simpa using hes (' ' :: rest) fs (noDigit_cons _ (by decide)) (.blank hlex)

theorem Written.postfixOf (P : Platform) {e : Expr} {s : List Char} (h : Written 1 e s) :
    ∃ es, Lexes P s es ∧ postfixOf P es = some e.postorder := by
  obtain ⟨es, hsyn, hes⟩ := h.tokens P
  obtain ⟨em, D, hrun, hpost, -⟩ := feedAll_syn hsyn (K := []) (by simp)
  refine ⟨es, by simpa using hes [] [] (by simp [NoDigit]) .nil, ?_⟩
  rw [Calculator.postfixOf, yardAll_of_feedAll hrun, Option.map_some, List.append_nil, hpost,
    e.postorder_tree]

theorem written_toDigits {p : ℤ} (n : Literal) : Written p (.lit n) (Nat.toDigits 10 n.val) :=
  .lit Nat.toDigits_ne_nil (toDigits_isDigit n.val) Nat.ofDigitChars_ten_toDigits

/-! ### The value of the postfix sequence -/

theorem evalM_tree {apply : Char → CInt → CInt → Except Fault CInt}
    (happly : ∀ (o : BinOp) (a b : CInt), (o = .div → b.val ≠ 0) →
      ∀ h : intMin ≤ o.apply a.val b.val ∧ o.apply a.val b.val ≤ intMax,
        apply o.char a b = .ok ⟨o.apply a.val b.val, h⟩)
    {e : Expr} (h : e.Fits) : e.tree.evalM id apply = .ok ⟨e.value, e.value_bounds h⟩ := by
  induction e with
  | lit n => rfl
  | bin o l r ihl ihr =>
    have hl := ihl h.1
    have hr := ihr h.2.1
    simp only [Expr.tree, Tree.evalM, hl, hr]
    exact happly o ⟨l.value, l.value_bounds h.1⟩ ⟨r.value, r.value_bounds h.2.1⟩ h.2.2.1 h.2.2.2

end GoodCommand.Calculator
