import GoodCommand.Calculator.CRuntime
import GoodCommand.Library.Except
import GoodCommand.Library.Shunting

/-! The scanner that both calculators share: what one turn of their loops takes off the text. -/

namespace GoodCommand.Calculator
open Shunting

abbrev Entry := Item CInt Char

inductive Lexeme where
  | op (c : Char)
  | blank
  | num (v : CInt) (n : ℕ)
  | stuck

def lexeme (P : Platform) (txt : List Char) : Lexeme :=
  match txt with
  | [] => .stuck
  | c :: cs =>
    if isLegalOp c then .op c
    else if c = ' ' then .blank
    else
      match sscanfD P (c :: cs) with
      | .read v n => .num v n
      | _ => .stuck

/-! ### The unread suffix -/

variable {s : List Char}

theorem drop_length_of_cons {i : ℕ} {c : Char} {cs : List Char} (h : s.drop i = c :: cs) :
    i < s.length ∧ i + cs.length + 1 = s.length := by
  have hlen := congrArg List.length h
  simp only [List.length_drop, List.length_cons] at hlen
  omega

theorem drop_succ_of_cons {i : ℕ} {c : Char} {cs : List Char} (h : s.drop i = c :: cs) :
    s.drop (i + 1) = cs := by
  rw [← List.drop_drop, h, List.drop_one, List.tail_cons]

theorem drop_add_of_append {i : ℕ} {ds cs : List Char} (h : s.drop i = ds ++ cs) :
    s.drop (i + ds.length) = cs := by
  rw [← List.drop_drop, h, List.drop_left]

/-! ### Lengths -/

theorem ofDigitChars_lt {ds : List Char} (hds : ∀ d ∈ ds, d.isDigit = true) :
    Nat.ofDigitChars 10 ds 0 < 10 ^ ds.length := by
  induction ds using List.reverseRecOn with
  | nil => simp
  | append_singleton ds d ih =>
    have hlt := ih fun c hc => hds c (by simp [hc])
    have hd : d.toNat - '0'.toNat < 10 := by
      have h := hds d (by simp)
      simp only [Char.isDigit, Bool.and_eq_true, decide_eq_true_eq] at h
      have h9 : d.toNat ≤ '9'.toNat := h.2
      have : '9'.toNat = 57 := rfl
      have : '0'.toNat = 48 := rfl
      omega
    rw [Nat.ofDigitChars_append, Nat.ofDigitChars_cons, Nat.ofDigitChars_nil, List.length_append,
      List.length_singleton, pow_succ]
    omega

theorem length_toDigits_le {n k : ℕ} (hk : 0 < k) (h : n < 10 ^ k) :
    (Nat.toDigits 10 n).length ≤ k := (Nat.length_toDigits_le_iff (by decide) hk).mpr h

theorem length_printD_le (v : CInt) : (printD v).length ≤ 11 := by
  have h := length_toDigits_le (by decide : 0 < 10) v.natAbs_lt
  unfold printD
  split
  · rw [List.length_cons]; omega
  · omega

theorem length_printD_of_nonneg {v : CInt} {k : ℕ} (hk : 0 < k) (h0 : 0 ≤ v.val)
    (h : v.val < 10 ^ k) : (printD v).length ≤ k := by
  rw [printD, if_neg (not_lt.mpr h0)]
  have hlt : v.val.natAbs < 10 ^ k := by zify; rwa [abs_of_nonneg h0]
  exact length_toDigits_le hk hlt

theorem length_printD_of_natAbs {v : CInt} {k : ℕ} (hk : 0 < k) (h : v.val.natAbs < 10 ^ k) :
    (printD v).length ≤ k + 1 := by
  have hlen := length_toDigits_le hk h
  unfold printD
  split
  · simpa using hlen
  · omega

theorem scanDigits_read {neg : Bool} {before n : ℕ} {txt : List Char} {z : ℤ}
    (h : scanDigits neg before txt = .read z n) :
    ∃ ds rest, txt = ds ++ rest ∧ ds ≠ [] ∧ (∀ d ∈ ds, d.isDigit = true) ∧ NoDigit rest ∧
      n = before + ds.length ∧
      z = if neg then -(Nat.ofDigitChars 10 ds 0 : ℤ) else Nat.ofDigitChars 10 ds 0 := by
  simp only [scanDigits] at h
  split at h
  · cases h
  · next hne =>
    injection h with hz hn
    refine ⟨_, _, (List.takeWhile_append_dropWhile (p := Char.isDigit)).symm, hne,
      fun d hd => List.mem_takeWhile_imp hd, fun d hd => ?_, hn.symm, hz.symm⟩
    have hhead := List.head?_dropWhile_not Char.isDigit txt
    rw [Option.mem_def] at hd
    simpa [hd] using hhead

theorem scanInt_read {txt : List Char} {z : ℤ} {n : ℕ} (h : scanInt txt = .read z n) :
    ∃ bl sg ds rest, txt = bl ++ sg ++ ds ++ rest ∧ (∀ c ∈ bl, isSpace c = true) ∧ ds ≠ [] ∧
      (∀ d ∈ ds, d.isDigit = true) ∧ NoDigit rest ∧ n = (bl ++ sg ++ ds).length ∧
      ((sg = [] ∨ sg = ['+']) ∧ z = Nat.ofDigitChars 10 ds 0 ∨
        sg = ['-'] ∧ z = -(Nat.ofDigitChars 10 ds 0 : ℤ)) := by
  have hsplit := List.takeWhile_append_dropWhile (p := isSpace) (l := txt)
  have hblanks : ∀ c ∈ txt.takeWhile isSpace, isSpace c = true :=
    fun c hc => List.mem_takeWhile_imp hc
  unfold scanInt at h
  split at h
  · cases h
  · next cs hdrop =>
    obtain ⟨ds, rest, rfl, hne, hds, hrest, hn, hz⟩ := scanDigits_read h
    refine ⟨_, ['-'], ds, rest, ?_, hblanks, hne, hds, hrest, ?_, .inr ⟨rfl, hz⟩⟩
    · rw [hdrop] at hsplit
      simpa using hsplit.symm
    · simp only [List.length_append, List.length_singleton, hn]
  · next cs hdrop =>
    obtain ⟨ds, rest, rfl, hne, hds, hrest, hn, hz⟩ := scanDigits_read h
    refine ⟨_, ['+'], ds, rest, ?_, hblanks, hne, hds, hrest, ?_, .inl ⟨.inr rfl, hz⟩⟩
    · rw [hdrop] at hsplit
      simpa using hsplit.symm
    · simp only [List.length_append, List.length_singleton, hn]
  · next c cs _ _ hdrop =>
    obtain ⟨ds, rest, heq, hne, hds, hrest, hn, hz⟩ := scanDigits_read h
    refine ⟨_, [], ds, rest, ?_, hblanks, hne, hds, hrest, ?_, .inl ⟨.inl rfl, hz⟩⟩
    · rw [hdrop, heq] at hsplit
      simpa using hsplit.symm
    · simp only [List.length_append, List.length_nil, hn, Nat.add_zero]

theorem takeWhile_length_add_dropWhile (p : Char → Bool) (txt : List Char) :
    (txt.takeWhile p).length + (txt.dropWhile p).length = txt.length := by
  rw [← List.length_append, List.takeWhile_append_dropWhile]

theorem sscanfD_read {P : Platform} {txt : List Char} {v : CInt} {n : ℕ}
    (h : sscanfD P txt = .read v n) : ∃ z, scanInt txt = .read z n ∧ v = P.store z := by
  unfold sscanfD at h
  split at h
  · cases h
  · cases h
  · next z m hz =>
    injection h with hv hn
    exact ⟨z, hn ▸ hz, hv.symm⟩

theorem sscanfD_bounds {P : Platform} {txt : List Char} {v : CInt} {n : ℕ}
    (h : sscanfD P txt = .read v n) :
    0 < n ∧ n ≤ txt.length ∧ (printD v).length + 1 ≤ 2 * n := by
  obtain ⟨z, hz, rfl⟩ := sscanfD_read h
  obtain ⟨bl, sg, ds, rest, rfl, -, hne, hds, -, rfl, hval⟩ := scanInt_read hz
  have hpos := List.length_pos_of_ne_nil hne
  have hdigits := ofDigitChars_lt hds
  simp only [List.length_append] at *
  have hlt : z.natAbs < 10 ^ ds.length := by
    rcases hval with ⟨-, rfl⟩ | ⟨-, rfl⟩ <;> simpa using hdigits
  have hneg : z < 0 → sg.length = 1 := by
    rintro h0
    rcases hval with ⟨-, rfl⟩ | ⟨rfl, -⟩
    · omega
    · rfl
  refine ⟨by omega, by omega, ?_⟩
  by_cases hr : intMin ≤ z ∧ z ≤ intMax
  · have hst : P.store z = ⟨z, hr⟩ := by rw [Platform.store, CInt.ofInt?_eq_some hr]; rfl
    rw [hst]
    by_cases h0 : z < 0
    · have := length_printD_of_natAbs (v := ⟨z, hr⟩) hpos hlt
      have := hneg h0
      omega
    · have hz' : z < 10 ^ ds.length := by zify at hlt; rwa [abs_of_nonneg (not_lt.mp h0)] at hlt
      have := length_printD_of_nonneg (v := ⟨z, hr⟩) hpos (not_lt.mp h0) hz'
      omega
  · have hten : 10 ≤ ds.length := by
      by_contra hlt10
      have hpow : 10 ^ ds.length ≤ 10 ^ 9 := Nat.pow_le_pow_right (by decide) (by omega)
      unfold intMin intMax at hr
      omega
    have := length_printD_le (P.store z)
    omega

theorem lexeme_num {P : Platform} {txt : List Char} {v : CInt} {n : ℕ}
    (h : lexeme P txt = .num v n) : sscanfD P txt = .read v n := by
  unfold lexeme at h
  split at h
  · cases h
  · split at h
    · cases h
    · split at h
      · cases h
      · split at h
        · next hread =>
          injection h with hv hn
          rw [hread, hv, hn]
        · cases h

end GoodCommand.Calculator
