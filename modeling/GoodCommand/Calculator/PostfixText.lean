import GoodCommand.Calculator.CalBstr

/-! The text between the two passes of `224.c`: how `cal_bstr` splits what `mtob` prints, and the
two passes together. -/

namespace GoodCommand.Calculator.StringStack
open Fuel Shunting

variable {P : Platform} {s : List Char}

/-- What `cal_bstr` takes a printed entry for. It tests operators before numbers, so the sign of a
negative number is one. -/
def entryTokens (P : Platform) : Entry → List Entry
  | .num v => if v.val < 0 then [.op '-', .num (P.store v.val.natAbs)] else [.num v]
  | .op c => [.op c]

def textTokens (P : Platform) (es : List Entry) : List Entry := es.flatMap (entryTokens P)

theorem noDigit_blank (txt : List Char) : NoDigit (' ' :: txt) := by
  simp [NoDigit]

theorem lexes_printD {txt : List Char} {es : List Entry} (v : CInt) (h : Lexes P txt es) :
    Lexes P (printD v ++ ' ' :: txt) (entryTokens P (.num v) ++ es) := by
  have hnum := Lexes.num (Nat.toDigits_ne_nil (n := v.val.natAbs) (b := 10)) (toDigits_isDigit _)
    (noDigit_blank txt) (Lexes.blank h)
  rw [Nat.ofDigitChars_ten_toDigits] at hnum
  simp only [printD, entryTokens]
  split
  · exact .op (by decide) hnum
  · next hneg =>
    have habs : ((v.val.natAbs : ℕ) : ℤ) = v.val := by omega
    rw [habs, P.store_val] at hnum
    exact hnum

theorem lexes_text {es : List Entry} (hes : Legal es) : Lexes P (text es) (textTokens P es) := by
  induction es with
  | nil => exact .nil
  | cons e es ih =>
    have hrest := ih fun c hc => hes c (List.mem_cons_of_mem _ hc)
    cases e with
    | num v => simpa [entryText, textTokens] using lexes_printD v hrest
    | op c => exact .op (hes c (by simp)) (.blank hrest)

theorem textTokens_of_nonneg {es : List Entry} (h : ∀ v, Item.num v ∈ es → 0 ≤ v.val) :
    textTokens P es = es := by
  induction es with
  | nil => rfl
  | cons e es ih =>
    have hrest := ih fun v hv => h v (List.mem_cons_of_mem _ hv)
    simp only [textTokens, List.flatMap_cons] at hrest ⊢
    rw [hrest]
    cases e with
    | num v => simp [entryTokens, not_lt.mpr (h v (by simp))]
    | op c => rfl

theorem text_ne_nil {es : List Entry} (h : es ≠ []) : text es ≠ [] := by
  obtain ⟨e, es, rfl⟩ := List.exists_cons_of_ne_nil h
  cases e <;> simp [entryText]

theorem textTokens_ne_nil {es : List Entry} (h : es ≠ []) : textTokens P es ≠ [] := by
  obtain ⟨e, es, rfl⟩ := List.exists_cons_of_ne_nil h
  cases e with
  | num v =>
    simp only [textTokens, List.flatMap_cons, entryTokens]
    split <;> simp
  | op c => simp [textTokens, entryTokens]

/-! ### `calculate` -/

section
variable {es items : List Entry} {j : ℕ} {g : Globals}

theorem textFits_of_le (htakes : Takes P s 0 es j) (hj : j ≤ scanLen s)
    (hpost : postfixOf P es = some items) : TextFits s items := by
  simp only [postfixOf, Option.map_eq_some_iff, Prod.exists] at hpost
  obtain ⟨em, K, hyard, rfl⟩ := hpost
  have hcost := cost_of_takes htakes hyard
  rw [TextFits, text_append, List.length_append, length_text_ops]
  rw [List.length_nil] at hcost
  omega

theorem TextFits.length_lt (hfit : TextFits s items) (hsize : Sized s) :
    ((text items).length : ℤ) < intMax := by
  have hlen : (scanLen s : ℤ) = (strLen s).val := Int.toNat_of_nonneg hsize.1
  have hlt := hsize.2
  unfold TextFits at hfit
  unfold intMax
  omega

theorem calculate_of_mtob {buf : List Char} {g' : Globals}
    (hmtob : Returns (mtob P s g) (some buf, g')) (hnul : '\x00' ∈ buf) {v : CInt × Globals}
    (hcal : Returns (calBstr P (cString buf) g') v) : Returns (calculate P s g) v := by
  refine hmtob.bind ?_
  dsimp only
  rw [if_pos hnul]
  exact hcal

theorem calculate_faults_of_mtob {buf : List Char} {g' : Globals}
    (hmtob : Returns (mtob P s g) (some buf, g')) (hnul : '\x00' ∈ buf) {f : Fault}
    (hcal : Faults (calBstr P (cString buf) g') f) : Faults (calculate P s g) f := by
  refine hmtob.bind_faults ?_
  dsimp only
  rw [if_pos hnul]
  exact hcal

theorem NoText.calculate_faults (h : NoText P s g) : ∃ f, Faults (calculate P s g) f := by
  rcases h with ⟨f, hf⟩ | ⟨buf, g', hret, hnul⟩
  · exact ⟨f, Faults.bind hf⟩
  · refine ⟨.bufferIndex buf.length, hret.bind_faults ?_⟩
    dsimp only
    rw [if_neg hnul]
    exact faults_lift rfl

theorem calculate_returns_nil (hsize : Sized s) (hscan : Scans P s es j)
    (hpost : postfixOf P es = some []) (hg : g.it.val = -1) :
    ∃ g', Returns (calculate P s g) (CInt.zero, g') ∧ g'.it.val = -1 := by
  obtain ⟨buf, g₁, hmtob, hbuf, hnul, hit, -⟩ :=
    mtob_returns hsize hscan hpost (by unfold TextFits; simp) hg
  obtain ⟨g', hcal, hit'⟩ := calBstr_nil (P := P) hit
  exact ⟨g', calculate_of_mtob hmtob hnul (by rw [hbuf]; exact hcal), hit'⟩

theorem calculate_returns (hsize : Sized s) (hscan : Scans P s es j)
    (hpost : postfixOf P es = some items) (hfit : TextFits s items) (hg : g.it.val = -1)
    {v : CInt} {V : List CInt} (hfold : (textTokens P items).foldlM (calStep P) [] = .ok (v :: V)) :
    ∃ g', Returns (calculate P s g) (v, g') ∧ g'.it.val = V.length - 1 := by
  obtain ⟨buf, g₁, hmtob, hbuf, hnul, hit, -⟩ := mtob_returns hsize hscan hpost hfit hg
  have hne : items ≠ [] := by
    rintro rfl
    cases hfold
  have htext := (lexes_text (P := P) (postfixOf_legal hpost hscan.takes.legal)).splits
  obtain ⟨g', hcal, hit', -⟩ :=
    calBstr_returns htext (hfit.length_lt hsize) (text_ne_nil hne) hit hfold
  exact ⟨g', calculate_of_mtob hmtob hnul (by rw [hbuf]; exact hcal), hit'⟩

theorem calculate_faults (hsize : Sized s) (hscan : Scans P s es j)
    (hpost : postfixOf P es = some items) (hfit : TextFits s items) (hg : g.it.val = -1)
    {e : Fault} (hfold : (textTokens P items).foldlM (calStep P) [] = .error e) :
    Faults (calculate P s g) e := by
  obtain ⟨buf, g₁, hmtob, hbuf, hnul, hit, -⟩ := mtob_returns hsize hscan hpost hfit hg
  have hne : items ≠ [] := by
    rintro rfl
    cases hfold
  have htext := (lexes_text (P := P) (postfixOf_legal hpost hscan.takes.legal)).splits
  refine calculate_faults_of_mtob hmtob hnul ?_
  rw [hbuf]
  exact calBstr_faults htext (hfit.length_lt hsize) (text_ne_nil hne) hit hfold

theorem calculate_returns_iff (hsize : Sized s) (hscan : Scans P s es j)
    (hpost : postfixOf P es = some items) (hfit : TextFits s items) (hg : g.it.val = -1)
    {v : CInt} :
    (∃ g', Returns (calculate P s g) (v, g')) ↔ items = [] ∧ v = CInt.zero ∨
      ∃ V, (textTokens P items).foldlM (calStep P) [] = .ok (v :: V) := by
  constructor
  · rintro ⟨g', hret⟩
    by_cases hnil : items = []
    · subst hnil
      obtain ⟨g₁, hret₁, -⟩ := calculate_returns_nil hsize hscan hpost hg
      cases hret.unique hret₁
      exact .inl ⟨rfl, rfl⟩
    · refine .inr ?_
      cases hfold : (textTokens P items).foldlM (calStep P) [] with
      | error e =>
        exact absurd (calculate_faults hsize hscan hpost hfit hg hfold) hret.not_faults
      | ok V =>
        obtain ⟨w, V, rfl⟩ := List.exists_cons_of_ne_nil
          (foldlM_calStep_ne_nil (textTokens_ne_nil hnil) hfold)
        obtain ⟨g₁, hret₁, -⟩ := calculate_returns hsize hscan hpost hfit hg hfold
        cases hret.unique hret₁
        exact ⟨V, rfl⟩
  · rintro (⟨rfl, rfl⟩ | ⟨V, hfold⟩)
    · obtain ⟨g', hret, -⟩ := calculate_returns_nil hsize hscan hpost hg
      exact ⟨g', hret⟩
    · obtain ⟨g', hret, -⟩ := calculate_returns hsize hscan hpost hfit hg hfold
      exact ⟨g', hret⟩

end

end GoodCommand.Calculator.StringStack
