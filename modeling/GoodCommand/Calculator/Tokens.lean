import GoodCommand.Calculator.Yard

/-! The tokens that the scanners of both calculators take off any text, one lexeme after another. -/

namespace GoodCommand.Calculator
open Shunting

variable {P : Platform} {s : List Char} {es : List Entry}

/-- The scanners get through the text `s`, and `es` is what they take off it. -/
inductive Splits (P : Platform) : List Char → List Entry → Prop
  | nil : Splits P [] []
  | blank {s : List Char} {es : List Entry} : Splits P s es → Splits P (' ' :: s) es
  | op {c : Char} {s : List Char} {es : List Entry} : isLegalOp c = true → Splits P s es →
      Splits P (c :: s) (.op c :: es)
  | num {s : List Char} {v : CInt} {n : ℕ} {es : List Entry} : lexeme P s = .num v n →
      Splits P (s.drop n) es → Splits P s (.num v :: es)

theorem Lexes.splits (h : Lexes P s es) : Splits P s es := by
  induction h with
  | nil => exact .nil
  | blank _ ih => exact .blank ih
  | op hc _ ih => exact .op hc ih
  | num hne hds hs _ ih => exact .num (lexeme_digits hne hds hs) (by rwa [List.drop_left])

/-! ### Lexemes -/

theorem ne_nil_of_num {v : CInt} {n : ℕ} (h : lexeme P s = .num v n) : s ≠ [] := by
  rintro rfl
  cases h

theorem noDigit_of_num {v : CInt} {n : ℕ} (h : lexeme P s = .num v n) : NoDigit (s.drop n) := by
  obtain ⟨z, hz, -⟩ := sscanfD_read (lexeme_num h)
  obtain ⟨bl, sg, ds, rest, rfl, -, -, -, hrest, rfl, -⟩ := scanInt_read hz
  rwa [List.drop_left]

theorem num_head {c : Char} {v : CInt} {n : ℕ} (h : lexeme P (c :: s) = .num v n) :
    isLegalOp c = false ∧ c ≠ ' ' := by
  simp only [lexeme] at h
  split_ifs at h with hop hsp
  exact ⟨by simpa using hop, hsp⟩

theorem stuck_head {c : Char} (h : lexeme P (c :: s) = .stuck) :
    isLegalOp c = false ∧ c ≠ ' ' ∧
      (sscanfD P (c :: s) = .eof ∨ sscanfD P (c :: s) = .noMatch) := by
  simp only [lexeme] at h
  split_ifs at h with hop hsp
  refine ⟨by simpa using hop, hsp, ?_⟩
  cases hread : sscanfD P (c :: s) with
  | eof => exact .inl rfl
  | noMatch => exact .inr rfl
  | read v n =>
    rw [hread] at h
    cases h

theorem lt_length_of_num {i n : ℕ} {v : CInt} (h : lexeme P (s.drop i) = .num v n) :
    i < s.length := by
  have hne := ne_nil_of_num h
  by_contra hge
  exact hne (List.drop_eq_nil_of_le (not_lt.mp hge))

theorem drop_ne_nil {i : ℕ} (hi : i < s.length) : s.drop i ≠ [] := by simpa using hi

theorem lexeme_cases (P : Platform) {txt : List Char} (hne : txt ≠ []) :
    (∃ c cs, txt = c :: cs ∧ isLegalOp c = true) ∨ (∃ cs, txt = ' ' :: cs) ∨
      (∃ v n, lexeme P txt = .num v n) ∨ lexeme P txt = .stuck := by
  obtain ⟨c, cs, rfl⟩ := List.exists_cons_of_ne_nil hne
  by_cases hop : isLegalOp c = true
  · exact .inl ⟨c, cs, rfl, hop⟩
  by_cases hsp : c = ' '
  · exact .inr (.inl ⟨cs, by rw [hsp]⟩)
  simp only [lexeme, hop, hsp, if_false]
  cases sscanfD P (c :: cs) <;> simp

theorem Splits.unique {fs : List Entry} (h : Splits P s es) (h' : Splits P s fs) : es = fs := by
  induction h generalizing fs with
  | nil =>
    generalize hnil : ([] : List Char) = s at h'
    cases h' with
    | nil => rfl
    | blank _ => cases hnil
    | op _ _ => cases hnil
    | num hlex _ => exact absurd hnil.symm (ne_nil_of_num hlex)
  | @blank s es _ ih =>
    have hsp := lexeme_blank P s
    cases h' with
    | blank hrest => exact ih hrest
    | op hc _ => cases hc
    | num hlex _ => rw [hsp] at hlex; cases hlex
  | @op c s es hc _ ih =>
    have hop := lexeme_op (P := P) s hc
    cases h' with
    | blank _ => cases hc
    | op _ hrest => rw [ih hrest]
    | num hlex _ => rw [hop] at hlex; cases hlex
  | @num s v n es hlex _ ih =>
    cases h' with
    | nil => cases hlex
    | blank _ => rw [lexeme_blank] at hlex; cases hlex
    | op hc _ => rw [lexeme_op _ hc] at hlex; cases hlex
    | num hlex' hrest =>
      rw [hlex] at hlex'
      cases hlex'
      rw [ih hrest]

/-! ### The turns of a scan -/

/-- Turns of a scan of `s` that lead from the index `i` to the index `j` and take `es`. The last
number may go on behind the characters that `str_len` counts. -/
inductive Takes (P : Platform) (s : List Char) : ℕ → List Entry → ℕ → Prop
  | refl (i : ℕ) : Takes P s i [] i
  | blank {i j : ℕ} {cs : List Char} {es : List Entry} : InScan s i → s.drop i = ' ' :: cs →
      Takes P s (i + 1) es j → Takes P s i es j
  | op {i j : ℕ} {c : Char} {cs : List Char} {es : List Entry} : InScan s i → s.drop i = c :: cs →
      isLegalOp c = true → Takes P s (i + 1) es j → Takes P s i (.op c :: es) j
  | num {i j n : ℕ} {v : CInt} {es : List Entry} : InScan s i → lexeme P (s.drop i) = .num v n →
      ((i + n : ℕ) : ℤ) ≤ intMax → Takes P s (i + n) es j → Takes P s i (.num v :: es) j

/-- The scan of `s` takes `es` and ends at the index `j`. -/
structure Scans (P : Platform) (s : List Char) (es : List Entry) (j : ℕ) : Prop where
  takes : Takes P s 0 es j
  ends : ¬ InScan s j

section
variable {i j k : ℕ} {fs : List Entry}

theorem Takes.inScan (h : Takes P s i es j) (hne : es ≠ []) : InScan s i := by
  cases h with
  | refl => exact absurd rfl hne
  | blank hi _ _ => exact hi
  | op hi _ _ _ => exact hi
  | num hi _ _ _ => exact hi

theorem Takes.le (h : Takes P s i es j) : i ≤ j := by
  induction h with
  | refl => exact le_rfl
  | blank _ _ _ ih => omega
  | op _ _ _ _ ih => omega
  | num _ _ _ _ ih => omega

theorem Takes.trans (h : Takes P s i es j) (h' : Takes P s j fs k) :
    Takes P s i (es ++ fs) k := by
  induction h with
  | refl => exact h'
  | blank hi htxt _ ih => exact .blank hi htxt (ih h')
  | op hi htxt hc _ ih => exact .op hi htxt hc (ih h')
  | num hi hlex hn _ ih => exact .num hi hlex hn (ih h')

theorem num_le_length {n : ℕ} {v : CInt} (hi : i < s.length)
    (h : lexeme P (s.drop i) = .num v n) : 0 < n ∧ i + n ≤ s.length := by
  obtain ⟨hpos, hle, -⟩ := sscanfD_bounds (lexeme_num h)
  rw [List.length_drop] at hle
  omega

theorem Takes.numbers_le (h : Takes P s i es j) : numbers es ≤ scanLen s - i := by
  induction h with
  | refl => simp
  | blank _ _ _ ih => omega
  | op hin _ _ _ ih =>
    rw [numbers_op]
    omega
  | @num i j n v es hin hlex _ _ ih =>
    obtain ⟨hpos, -⟩ := num_le_length hin.lt_length hlex
    have hlt := inScan_iff.mp hin
    rw [numbers_num]
    omega

theorem Takes.legal (h : Takes P s i es j) : Legal es := by
  induction h with
  | refl => simp [Legal]
  | blank _ _ _ ih => exact ih
  | op _ _ hc _ ih =>
    intro q hq
    rcases List.mem_cons.mp hq with h | h
    · cases h
      exact hc
    · exact ih q h
  | num _ _ _ _ ih => exact fun q hq => ih q (by simpa using hq)

theorem lexeme_withUndef (P : Platform) (u : Char → CInt → CInt → Option CInt)
    (txt : List Char) : lexeme (P.withUndef u) txt = lexeme P txt := rfl

theorem Takes.withUndef (h : Takes P s i es j) (u : Char → CInt → CInt → Option CInt) :
    Takes (P.withUndef u) s i es j := by
  induction h with
  | refl i => exact .refl i
  | blank hi htxt _ ih => exact .blank hi htxt ih
  | op hi htxt hc _ ih => exact .op hi htxt hc ih
  | num hi hlex hn _ ih => exact .num hi (by rwa [lexeme_withUndef]) hn ih

theorem Takes.unique {i j k : ℕ} {fs : List Entry} (h : Takes P s i es j) (hj : ¬ InScan s j)
    (h' : Takes P s i fs k) (hk : ¬ InScan s k) : es = fs ∧ j = k := by
  induction h generalizing fs with
  | refl i =>
    cases h' with
    | refl => exact ⟨rfl, rfl⟩
    | blank hi _ _ => exact absurd hi hj
    | op hi _ _ _ => exact absurd hi hj
    | num hi _ _ _ => exact absurd hi hj
  | @blank i j cs es hi htxt _ ih =>
    have hsp := lexeme_blank P cs
    rw [← htxt] at hsp
    cases h' with
    | refl => exact absurd hi hk
    | blank _ _ hrest => exact ih hj hrest
    | op _ htxt' hc _ =>
      rw [htxt] at htxt'
      cases htxt'
      cases hc
    | num _ hlex _ _ => rw [hsp] at hlex; cases hlex
  | @op i j c cs es hi htxt hc _ ih =>
    have hop := lexeme_op (P := P) cs hc
    rw [← htxt] at hop
    cases h' with
    | refl => exact absurd hi hk
    | blank _ htxt' _ =>
      rw [htxt] at htxt'
      cases htxt'
      cases hc
    | op _ htxt' _ hrest =>
      rw [htxt] at htxt'
      cases htxt'
      obtain ⟨rfl, rfl⟩ := ih hj hrest
      exact ⟨rfl, rfl⟩
    | num _ hlex _ _ => rw [hop] at hlex; cases hlex
  | @num i j n v es hi hlex _ _ ih =>
    cases h' with
    | refl => exact absurd hi hk
    | blank _ htxt _ => rw [htxt, lexeme_blank] at hlex; cases hlex
    | op _ htxt hc _ => rw [htxt, lexeme_op _ hc] at hlex; cases hlex
    | num _ hlex' _ hrest =>
      rw [hlex] at hlex'
      cases hlex'
      obtain ⟨rfl, rfl⟩ := ih hj hrest
      exact ⟨rfl, rfl⟩

theorem Scans.unique {fs : List Entry} (h : Scans P s es j) (h' : Scans P s fs k) :
    es = fs ∧ j = k := h.takes.unique h.ends h'.takes h'.ends

theorem Splits.takes {txt : List Char} (h : Splits P txt es) (htxt : s.drop i = txt)
    (hlen : (s.length : ℤ) ≤ intMax) (hi : i ≤ s.length) : Takes P s i es s.length := by
  induction h generalizing i with
  | nil =>
    have heq : i = s.length := le_antisymm hi (List.drop_eq_nil_iff.mp htxt)
    exact heq ▸ .refl i
  | blank _ ih =>
    obtain ⟨hlt, -⟩ := drop_length_of_cons htxt
    exact .blank ((inScan_of_le hlen).mpr hlt) htxt (ih (drop_succ_of_cons htxt) hlt)
  | op hc _ ih =>
    obtain ⟨hlt, -⟩ := drop_length_of_cons htxt
    exact .op ((inScan_of_le hlen).mpr hlt) htxt hc (ih (drop_succ_of_cons htxt) hlt)
  | num hlex _ ih =>
    rw [← htxt] at hlex
    have hlt := lt_length_of_num hlex
    obtain ⟨-, hle⟩ := num_le_length hlt hlex
    exact .num ((inScan_of_le hlen).mpr hlt) hlex (by omega)
      (ih (by rw [← List.drop_drop, htxt]) hle)

theorem Splits.scans (h : Splits P s es) (hlen : (s.length : ℤ) ≤ intMax) :
    Scans P s es s.length :=
  ⟨h.takes rfl hlen (Nat.zero_le _), by rw [inScan_of_le hlen]; exact lt_irrefl _⟩

end

def taken (P : Platform) (txt : List Char) : List Entry :=
  match lexeme P txt with
  | .op c => [.op c]
  | .num v _ => [.num v]
  | _ => []

theorem taken_op {c : Char} (s : List Char) (hc : isLegalOp c = true) :
    taken P (c :: s) = [.op c] := by rw [taken, lexeme_op s hc]

theorem taken_blank (P : Platform) (s : List Char) : taken P (' ' :: s) = [] := by
  rw [taken, lexeme_blank]

theorem taken_num {v : CInt} {n : ℕ} (h : lexeme P s = .num v n) : taken P s = [.num v] := by
  rw [taken, h]

end GoodCommand.Calculator
