import GoodCommand.Calculator.Tokens

/-! What the scanners see of a text. They count its characters in an `int`, and a number that begins
among the characters that are counted is read to its last digit. -/

namespace GoodCommand.Calculator
open Shunting

variable {P : Platform} {s : List Char} {es : List Entry} {i j m : ℕ}

/-- The first `m` characters of a text, and the rest of a run of digits that they end in. The second
argument tells whether a digit came before. -/
def seenFrom : ℕ → Bool → List Char → List Char
  | _, _, [] => []
  | m, run, c :: s =>
    if 0 < m ∨ run = true ∧ c.isDigit = true then c :: seenFrom (m - 1) c.isDigit s else []

/-- The first `str_len` characters of `s`, and the rest of a number that they end in. -/
def seen (s : List Char) : List Char := seenFrom (scanLen s) false s

theorem seenFrom_prefix_self (m : ℕ) (run : Bool) (s : List Char) : seenFrom m run s <+: s := by
  induction s generalizing m run with
  | nil => exact List.prefix_rfl
  | cons c s ih =>
    rw [seenFrom]
    split
    · exact List.cons_prefix_cons.mpr ⟨rfl, ih _ _⟩
    · exact List.nil_prefix

theorem seenFrom_of_length {run : Bool} (h : s.length ≤ m) : seenFrom m run s = s := by
  induction s generalizing m run with
  | nil => rfl
  | cons c s ih =>
    rw [List.length_cons] at h
    rw [seenFrom, if_pos (Or.inl (by omega)), ih (by omega)]

theorem le_length_seenFrom {run : Bool} (h : m ≤ s.length) : m ≤ (seenFrom m run s).length := by
  induction s generalizing m run with
  | nil => exact h
  | cons c s ih =>
    rw [List.length_cons] at h
    cases m with
    | zero => exact Nat.zero_le _
    | succ m =>
      rw [seenFrom, if_pos (Or.inl (Nat.succ_pos m)), List.length_cons]
      exact Nat.succ_le_succ (ih (by omega))

theorem seenFrom_noDigit (h : NoDigit s) : seenFrom m true s = seenFrom m false s := by
  cases s with
  | nil => rfl
  | cons c s =>
    have hc : c.isDigit = false := h c (by simp)
    simp [seenFrom, hc]

theorem seenFrom_digits {ds : List Char} (hds : ∀ d ∈ ds, d.isDigit = true) (rest : List Char) :
    seenFrom m true (ds ++ rest) = ds ++ seenFrom (m - ds.length) true rest := by
  induction ds generalizing m with
  | nil => rfl
  | cons d ds ih =>
    have hd := hds d (by simp)
    have hrest := @ih (m - 1) fun c hc => hds c (List.mem_cons_of_mem _ hc)
    rw [List.cons_append, seenFrom, if_pos (Or.inr ⟨rfl, hd⟩), hd, hrest, List.length_cons,
      List.cons_append, Nat.sub_sub, Nat.add_comm 1]

theorem seenFrom_num {ds rest : List Char} (hm : 0 < m) (hne : ds ≠ [])
    (hds : ∀ d ∈ ds, d.isDigit = true) (hrest : NoDigit rest) :
    seenFrom m false (ds ++ rest) = ds ++ seenFrom (m - ds.length) false rest := by
  obtain ⟨d, ds, rfl⟩ := List.exists_cons_of_ne_nil hne
  have hrun := seenFrom_digits (m := m) hds rest
  rw [seenFrom_noDigit hrest] at hrun
  rw [← hrun, List.cons_append, seenFrom, seenFrom, if_pos (Or.inl hm), if_pos (Or.inl hm)]

theorem scanLen_le_length (s : List Char) : scanLen s ≤ s.length := by
  by_contra hlt
  exact absurd (inScan_iff.mpr (not_le.mp hlt)).lt_length (lt_irrefl _)

theorem seen_prefix_self (s : List Char) : seen s <+: s := seenFrom_prefix_self _ _ s

theorem seen_of_le (h : (s.length : ℤ) ≤ intMax) : seen s = s :=
  seenFrom_of_length (scanLen_of_le h).ge

theorem scanLen_le_seen (s : List Char) : scanLen s ≤ (seen s).length :=
  le_length_seenFrom (scanLen_le_length s)

theorem not_inScan_seen (s : List Char) : ¬ InScan s (seen s).length := by
  rw [inScan_iff]
  exact not_lt.mpr (scanLen_le_seen s)

/-! ### Scans of texts over digits, operators and spaces -/

/-- The scan comes to a number that ends behind the last index that is an `int`. -/
def Overflows (P : Platform) (s : List Char) (i : ℕ) : Prop :=
  ∃ es j v n, Takes P s i es j ∧ InScan s j ∧ lexeme P (s.drop j) = .num v n ∧
    ¬ ((j + n : ℕ) : ℤ) ≤ intMax

theorem Overflows.of_takes (h : Takes P s i es j) (hover : Overflows P s j) :
    Overflows P s i := by
  obtain ⟨fs, k, v, n, htakes, hrest⟩ := hover
  exact ⟨es ++ fs, k, v, n, h.trans htakes, hrest⟩

structure Scanned (P : Platform) (s : List Char) (i : ℕ) (t : List Char) (es : List Entry) :
    Prop where
  lexes : Lexes P t es
  takes : ((i + t.length : ℕ) : ℤ) ≤ intMax → Takes P s i es (i + t.length)
  overflows : ¬ ((i + t.length : ℕ) : ℤ) ≤ intMax → Overflows P s i ∨ intMax < i

theorem Scanned.head {w t : List Char} {fs : List Entry} (h : Scanned P s (i + w.length) t es)
    (hlex : Lexes P (w ++ t) (fs ++ es))
    (hfirst : ((i + w.length : ℕ) : ℤ) ≤ intMax → Takes P s i fs (i + w.length))
    (hbig : ¬ ((i + w.length : ℕ) : ℤ) ≤ intMax → Overflows P s i) :
    Scanned P s i (w ++ t) (fs ++ es) where
  lexes := hlex
  takes hle := by
    rw [List.length_append, ← Nat.add_assoc] at hle ⊢
    exact (hfirst (by omega)).trans (h.takes hle)
  overflows hgt := by
    rw [List.length_append, ← Nat.add_assoc] at hgt
    by_cases hle : ((i + w.length : ℕ) : ℤ) ≤ intMax
    · refine .inl (.of_takes (hfirst hle) ((h.overflows hgt).resolve_right ?_))
      exact not_lt.mpr hle
    · exact .inl (hbig hle)

theorem scanned_seenFrom (P : Platform) {txt : List Char} (htxt : s.drop i = txt)
    (hs : InAlphabet txt) :
    ∃ es, Scanned P s i (seenFrom (scanLen s - i) false txt) es := by
  induction hn : txt.length using Nat.strong_induction_on generalizing i txt with
  | _ n ih =>
    by_cases hin : InScan s i
    · have hpos : 0 < scanLen s - i := Nat.sub_pos_of_lt (inScan_iff.mp hin)
      obtain ⟨c, cs, hcs⟩ := List.exists_cons_of_ne_nil (drop_ne_nil hin.lt_length)
      obtain rfl := htxt.symm.trans hcs
      have hdrop := drop_succ_of_cons hcs
      -- a character that is a token of its own
      have hone : c.isDigit = false → ∃ es, seenFrom (scanLen s - i) false (c :: cs) =
          [c] ++ seenFrom (scanLen s - (i + 1)) false cs ∧
          Scanned P s (i + 1) (seenFrom (scanLen s - (i + 1)) false cs) es := fun hd => by
        obtain ⟨es, hes⟩ := ih cs.length (by rw [← hn]; simp) hdrop
          (fun d hd => hs d (List.mem_cons_of_mem _ hd)) rfl
        exact ⟨es, by rw [seenFrom, if_pos (Or.inl hpos), hd, Nat.sub_sub]; rfl, hes⟩
      rcases hs c (by simp) with hd | ho | rfl
      · obtain ⟨ds, rest, hsplit, hne, hds, hrest⟩ := exists_digits hd cs
        rw [hsplit] at htxt hs hn ⊢
        have hnum := lexeme_digits (P := P) hne hds hrest
        rw [← htxt] at hnum
        have hlt := List.length_pos_of_ne_nil hne
        rw [seenFrom_num hpos hne hds hrest, Nat.sub_sub]
        obtain ⟨es, hes⟩ := ih rest.length (by rw [← hn, List.length_append]; omega)
          (drop_add_of_append htxt) (fun d hd => hs d (List.mem_append_right _ hd)) rfl
        have hno := hrest.mono (seenFrom_prefix_self (scanLen s - (i + ds.length)) false rest)
        exact ⟨_, hes.head (.num hne hds hno hes.lexes) (fun h => .num hin hnum h (.refl _))
          fun h => ⟨[], i, _, _, .refl i, hin, hnum, h⟩⟩
      · obtain ⟨es, heq, hes⟩ := hone (not_isDigit_of_isLegalOp ho)
        rw [heq]
        have hlex : Lexes P ([c] ++ _) ([.op c] ++ es) := .op ho hes.lexes
        exact ⟨_, Scanned.head hes hlex (fun _ => .op hin hcs ho (.refl _)) fun h =>
          absurd hin.succ_le h⟩
      · obtain ⟨es, heq, hes⟩ := hone (by decide)
        rw [heq]
        have hlex : Lexes P ([' '] ++ _) ([] ++ es) := .blank hes.lexes
        exact ⟨_, Scanned.head hes hlex (fun _ => .blank hin hcs (.refl _)) fun h =>
          absurd hin.succ_le h⟩
    · have hnil : seenFrom (scanLen s - i) false txt = [] := by
        rw [Nat.sub_eq_zero_of_le (not_lt.mp (mt inScan_iff.mpr hin))]
        cases txt <;> simp [seenFrom]
      rw [hnil]
      exact ⟨[], .nil, fun _ => .refl i, fun h => .inr (by simpa using h)⟩

/-- On these texts the scan takes the tokens of the text that it sees, unless the index overflows
before. -/
theorem exists_scan (P : Platform) (hs : InAlphabet s) :
    ∃ es, Lexes P (seen s) es ∧
      (((seen s).length : ℤ) ≤ intMax → Scans P s es (seen s).length) ∧
      (¬ ((seen s).length : ℤ) ≤ intMax → Overflows P s 0) := by
  obtain ⟨es, hes⟩ := scanned_seenFrom P (s := s) (i := 0) List.drop_zero hs
  rw [Nat.sub_zero] at hes
  change Scanned P s 0 (seen s) es at hes
  have htakes := hes.takes
  have hover := hes.overflows
  rw [Nat.zero_add] at htakes hover
  refine ⟨es, hes.lexes, fun h => ⟨htakes h, not_inScan_seen s⟩, fun h => ?_⟩
  refine (hover h).resolve_right fun hlt => ?_
  unfold intMax at hlt
  omega

end GoodCommand.Calculator
