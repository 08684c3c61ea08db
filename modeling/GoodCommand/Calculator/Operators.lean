import GoodCommand.Calculator.Seen

/-! Which texts the two scanners get through: those whose characters all belong to some token, and
whose `)` never find operators on the stack but no `(` among them. Both are read off the text. -/

namespace GoodCommand.Calculator
open Shunting

variable {P : Platform}

/-! ### Parentheses -/

def flat (K : List Char) : Bool := K.getLast?.any (· ≠ '(')

/-- No `)` comes at depth 0 after an operator or another `)` at depth 0. The first argument is the
depth reached so far, the second whether an operator has come at depth 0. -/
def closesSafe : ℕ → Bool → List Char → Bool
  | _, _, [] => true
  | depth, low, c :: s =>
    if c = '(' then closesSafe (depth + 1) low s
    else if c = ')' then
      if depth = 0 then !low && closesSafe 0 true s else closesSafe (depth - 1) low s
    else if isLegalOp c then closesSafe depth (low || depth = 0) s
    else closesSafe depth low s

theorem closesSafe_left (depth : ℕ) (low : Bool) (s : List Char) :
    closesSafe depth low ('(' :: s) = closesSafe (depth + 1) low s := rfl

theorem closesSafe_right (depth : ℕ) (low : Bool) (s : List Char) :
    closesSafe depth low (')' :: s) =
      if depth = 0 then !low && closesSafe 0 true s else closesSafe (depth - 1) low s := rfl

theorem closesSafe_arith {c : Char} (h : IsArith c) (depth : ℕ) (low : Bool) (s : List Char) :
    closesSafe depth low (c :: s) = closesSafe depth (low || depth = 0) s := by
  rcases h with rfl | rfl | rfl | rfl <;> rfl

theorem closesSafe_filter (depth : ℕ) (low : Bool) (s : List Char) :
    closesSafe depth low (s.filter isLegalOp) = closesSafe depth low s := by
  induction s generalizing depth low with
  | nil => rfl
  | cons c s ih =>
    by_cases hc : isLegalOp c = true
    · rw [List.filter_cons_of_pos hc]
      simp only [closesSafe, ih]
    · have h1 : c ≠ '(' := by rintro rfl; exact hc rfl
      have h2 : c ≠ ')' := by rintro rfl; exact hc rfl
      rw [List.filter_cons_of_neg hc, ih, closesSafe, if_neg h1, if_neg h2, if_neg hc]

theorem flat_split (A B : List Char) : flat (A ++ '(' :: B) = flat B := by
  cases B with
  | nil => simp [flat]
  | cons b B => simp [flat, List.getLast?_append, List.getLast?_cons]

theorem flat_of_count {K : List Char} (h : K.count '(' = 0) : flat K = !K.isEmpty := by
  cases K using List.reverseRecOn with
  | nil => rfl
  | append_singleton K q =>
    have hq : q ≠ '(' := by
      rintro rfl
      simp at h
    simp [flat, hq]

theorem flat_reduce {c : Char} (h : IsArith c) (K : List Char) :
    flat (c :: K.dropWhile fun q => prio P c ≤ prio P q) = (flat K || K.count '(' = 0) := by
  have hc := h.ne_left
  by_cases hcount : K.count '(' = 0
  · rw [flat_of_count ((count_reduce h K).trans hcount)]
    simp [hcount]
  · obtain ⟨A, B, rfl, hA⟩ :=
      exists_split_of_mem (List.count_pos_iff.mp (Nat.pos_of_ne_zero hcount))
    rw [(reduce_split h A B).2, ← List.cons_append, flat_split, flat_split]
    simp

theorem closesSafe_cons {c : Char} (hc : isLegalOp c = true) (K ops : List Char) :
    closesSafe (K.count '(') (flat K) (c :: ops) = true ↔
      ∃ em K', yardOp P c K = some (em, K') ∧
        closesSafe (K'.count '(') (flat K') ops = true := by
  rcases isLegalOp_cases hc with harith | rfl | rfl
  · rw [closesSafe_arith harith, yardOp_arith harith]
    simp only [Option.some.injEq, Prod.mk.injEq, existsAndEq, true_and]
    rw [count_reduce harith, flat_reduce harith]
  · rw [closesSafe_left, yardOp_left]
    have hflat : flat ('(' :: K) = flat K := flat_split [] K
    simp [hflat]
  · rw [closesSafe_right]
    by_cases hmem : '(' ∈ K
    · obtain ⟨A, B, rfl, hA⟩ := exists_split_of_mem hmem
      have hcount : (A ++ '(' :: B).count '(' = B.count '(' + 1 := by
        rw [List.count_append, List.count_eq_zero.mpr hA, List.count_cons_self, Nat.zero_add]
      rw [hcount, if_neg (Nat.succ_ne_zero _), flat_split, yardOp_right B hA]
      simp
    · have hcount := List.count_eq_zero.mpr hmem
      rw [hcount, if_pos rfl, flat_of_count hcount]
      by_cases hnil : K = []
      · subst hnil
        simp [yardOp, flat]
      · simp [yardOp_eq_none_iff.mpr ⟨hnil, rfl, hmem⟩, hnil]

/-! ### Tokens of arbitrary texts -/

/-- Where a scanner stands between two characters: before a token, in the blanks that `"%d"` skips,
or behind its sign. -/
inductive Mode where
  | free
  | blank
  | signed

/-- The operators that the scanners find in a text of which `m` characters are counted, `none` when
they come to a character that neither of their conversions gets past. Only between two tokens do
they look at the count. -/
def operators : ℕ → Mode → List Char → Option (List Char)
  | 0, .free, _ => some []
  | _ + 1, .free, [] => some []
  | m + 1, .free, c :: s =>
    if isLegalOp c then (operators m .free s).map (c :: ·)
    else if c = ' ' ∨ c.isDigit then operators m .free s
    else if isSpace c then operators m .blank s
    else none
  | _, .blank, [] => none
  | m, .blank, c :: s =>
    if c.isDigit then operators (m - 1) .free s
    else if isSpace c then operators (m - 1) .blank s
    else if c = '+' ∨ c = '-' then operators (m - 1) .signed s
    else none
  | _, .signed, [] => none
  | m, .signed, c :: s => if c.isDigit then operators (m - 1) .free s else none

theorem operators_zero (s : List Char) : operators 0 .free s = some [] := by
  cases s <;> rfl

theorem operators_op {m : ℕ} {c : Char} (hm : 0 < m) (hc : isLegalOp c = true) (s : List Char) :
    operators m .free (c :: s) = (operators (m - 1) .free s).map (c :: ·) := by
  obtain ⟨m, rfl⟩ := Nat.exists_eq_succ_of_ne_zero hm.ne'
  rw [operators, if_pos hc, Nat.succ_sub_one]

theorem operators_space (m : ℕ) (s : List Char) :
    operators m .free (' ' :: s) = operators (m - 1) .free s := by
  cases m with
  | zero => rw [operators_zero, operators_zero]
  | succ m => rfl

theorem operators_digit {c : Char} (hc : c.isDigit = true) (m : ℕ) (s : List Char) :
    operators m .free (c :: s) = operators (m - 1) .free s := by
  cases m with
  | zero => rw [operators_zero, operators_zero]
  | succ m =>
    rw [operators, not_isLegalOp_of_isDigit hc, if_neg (by simp), if_pos (Or.inr hc),
      Nat.succ_sub_one]

theorem operators_digits {ds : List Char} (hds : ∀ d ∈ ds, d.isDigit = true) (m : ℕ)
    (s : List Char) : operators m .free (ds ++ s) = operators (m - ds.length) .free s := by
  induction ds generalizing m with
  | nil => rfl
  | cons d ds ih =>
    rw [List.cons_append, operators_digit (hds d (by simp)),
      ih (fun c hc => hds c (List.mem_cons_of_mem _ hc)), List.length_cons, Nat.sub_sub,
      Nat.add_comm 1]

theorem drop_takeWhile (p : Char → Bool) (s : List Char) :
    s.drop (s.takeWhile p).length = s.dropWhile p := by
  induction s with
  | nil => rfl
  | cons c s ih => by_cases hc : p c = true <;> simp [hc, ih]

theorem operators_blanks (m : ℕ) (s : List Char) :
    operators m .blank s =
      operators (m - (s.takeWhile isSpace).length) .blank (s.dropWhile isSpace) := by
  induction s generalizing m with
  | nil => simp [operators]
  | cons c s ih =>
    by_cases hc : isSpace c = true
    · have hd : c.isDigit = false := by
        by_contra hd
        rw [not_isSpace_of_isDigit (by simpa using hd)] at hc
        cases hc
      rw [operators, hd, if_neg (by simp), if_pos hc, ih, List.dropWhile_cons_of_pos hc,
        List.takeWhile_cons_of_pos hc, List.length_cons, Nat.sub_sub, Nat.add_comm 1]
    · rw [List.dropWhile_cons_of_neg hc, List.takeWhile_cons_of_neg hc, List.length_nil,
        Nat.sub_zero]

theorem operators_signed (neg : Bool) (before m : ℕ) (s : List Char) :
    operators m .signed s = match scanDigits neg before s with
      | .read _ n => operators (m - (n - before)) .free (s.drop (n - before))
      | _ => none := by
  unfold scanDigits
  by_cases hne : s.takeWhile Char.isDigit = []
  · have hsigned : operators m .signed s = none := by
      cases s with
      | nil => simp [operators]
      | cons c s =>
        have hc : ¬ c.isDigit = true := fun hc => by simp [hc] at hne
        rw [operators, if_neg hc]
    simp only [hne, if_true, hsigned]
  · simp only [hne, if_false, Nat.add_sub_cancel_left]
    have hsigned : operators m .signed s = operators m .free s := by
      cases s with
      | nil => exact absurd rfl hne
      | cons c s =>
        have hc : c.isDigit = true := by
          by_contra hc
          exact hne (List.takeWhile_cons_of_neg hc)
        rw [operators, if_pos hc, operators_digit hc]
    rw [hsigned, drop_takeWhile]
    conv_lhs => rw [← List.takeWhile_append_dropWhile (p := Char.isDigit) (l := s)]
    exact operators_digits (fun d hd => List.mem_takeWhile_imp hd) m _

theorem scanInt_eq {s cs : List Char} {c : Char} (hr : s.dropWhile isSpace = c :: cs) :
    scanInt s =
      if c = '-' then scanDigits true ((s.takeWhile isSpace).length + 1) cs
      else if c = '+' then scanDigits false ((s.takeWhile isSpace).length + 1) cs
      else scanDigits false (s.takeWhile isSpace).length (c :: cs) := by
  unfold scanInt
  split <;> grind

theorem operators_sign {c : Char} (hd : ¬ c.isDigit = true) (hsp : ¬ isSpace c = true)
    (hc : c = '+' ∨ c = '-') (m : ℕ) (s : List Char) :
    operators m .blank (c :: s) = operators (m - 1) .signed s := by
  rw [operators, if_neg hd, if_neg hsp, if_pos hc]

theorem operators_blank (m : ℕ) (s : List Char) :
    operators m .blank s = match scanInt s with
      | .read _ n => operators (m - n) .free (s.drop n)
      | _ => none := by
  have hsigned : ∀ {neg before k} {txt : List Char},
      before = (s.takeWhile isSpace).length + k → (s.dropWhile isSpace).drop k = txt →
      operators (m - before) .signed txt = match scanDigits neg before txt with
        | .read _ n => operators (m - n) .free (s.drop n)
        | _ => none := by
    intro neg before k txt hbefore htxt
    rw [operators_signed neg before]
    cases hz : scanDigits neg before txt with
    | read z n =>
      obtain ⟨ds, -, -, -, -, -, hlen, -⟩ := scanDigits_read hz
      have hn : n = (s.takeWhile isSpace).length + (k + (n - before)) := by omega
      have hdrop : s.drop n = txt.drop (n - before) := by
        conv_lhs => rw [hn, ← List.drop_drop, drop_takeWhile, ← List.drop_drop, htxt]
      have hcount : m - before - (n - before) = m - n := by omega
      simp only [hdrop, hcount]
    | eof => rfl
    | noMatch => rfl
  rw [operators_blanks]
  cases hr : s.dropWhile isSpace with
  | nil =>
    unfold scanInt
    rw [hr]
    simp [operators]
  | cons c cs =>
    have hsp : ¬ isSpace c = true := by
      have hhead := List.head?_dropWhile_not isSpace s
      rw [hr] at hhead
      simpa using hhead
    rw [scanInt_eq hr]
    by_cases hminus : c = '-'
    · subst hminus
      rw [operators_sign (by decide) (by decide) (by decide), Nat.sub_sub]
      exact hsigned (k := 1) rfl (by rw [hr]; rfl)
    by_cases hplus : c = '+'
    · subst hplus
      rw [operators_sign (by decide) (by decide) (by decide), Nat.sub_sub]
      exact hsigned (k := 1) rfl (by rw [hr]; rfl)
    · rw [if_neg hminus, if_neg hplus]
      refine Eq.trans ?_ (hsigned (k := 0) rfl hr)
      by_cases hd : c.isDigit = true
      · rw [operators, operators, if_pos hd, if_pos hd]
      · rw [operators, operators, if_neg hd, if_neg hd, if_neg hsp,
          if_neg (by simp [hminus, hplus])]

/-! ### Both together -/

def Fine (K : List Char) (m : ℕ) (txt : List Char) : Prop :=
  ∃ ops, operators m .free txt = some ops ∧ closesSafe (K.count '(') (flat K) ops = true

theorem fine_zero (K txt : List Char) : Fine K 0 txt := ⟨[], operators_zero txt, rfl⟩

variable {m : ℕ}

theorem fine_op {c : Char} (hm : 0 < m) (hc : isLegalOp c = true) (K s : List Char) :
    Fine K m (c :: s) ↔ ∃ em K', yardOp P c K = some (em, K') ∧ Fine K' (m - 1) s := by
  rw [Fine, operators_op hm hc]
  constructor
  · rintro ⟨_, hmap, hsafe⟩
    obtain ⟨ops, hops, rfl⟩ := Option.map_eq_some_iff.mp hmap
    obtain ⟨em, K', hyard, hsafe⟩ := (closesSafe_cons (P := P) hc K ops).mp hsafe
    exact ⟨em, K', hyard, ops, hops, hsafe⟩
  · rintro ⟨em, K', hyard, ops, hops, hsafe⟩
    exact ⟨c :: ops, by rw [hops, Option.map_some],
      (closesSafe_cons hc K ops).mpr ⟨em, K', hyard, hsafe⟩⟩

theorem Fine.mem_left {K s : List Char} (hm : 0 < m) (h : Fine K m (')' :: s)) (hK : K ≠ []) :
    '(' ∈ K := by
  obtain ⟨em, K', hyard, -⟩ := (fine_op (P := x86) hm (by decide) K s).mp h
  by_contra hmem
  rw [yardOp_eq_none_iff.mpr ⟨hK, rfl, hmem⟩] at hyard
  cases hyard

theorem fine_space (K s : List Char) : Fine K m (' ' :: s) ↔ Fine K (m - 1) s := by
  rw [Fine, operators_space, Fine]

theorem operators_of_not_op {c : Char} (hm : 0 < m) (hop : isLegalOp c = false) (hsp : c ≠ ' ')
    (s : List Char) : operators m .free (c :: s) = match sscanfD P (c :: s) with
      | .read _ n => operators (m - n) .free ((c :: s).drop n)
      | _ => none := by
  have hmode : operators m .free (c :: s) = operators m .blank (c :: s) := by
    have hminus : c ≠ '-' := by rintro rfl; cases hop
    have hplus : c ≠ '+' := by rintro rfl; cases hop
    obtain ⟨m, rfl⟩ := Nat.exists_eq_succ_of_ne_zero hm.ne'
    simp [operators, hop, hsp, hminus, hplus]
  have hscan : operators m .blank (c :: s) = match sscanfD P (c :: s) with
      | .read _ n => operators (m - n) .free ((c :: s).drop n)
      | _ => none := by
    rw [operators_blank, sscanfD]
    cases scanInt (c :: s) <;> rfl
  exact hmode.trans hscan

theorem fine_num {K txt : List Char} {v : CInt} {n : ℕ} (hm : 0 < m)
    (h : lexeme P txt = .num v n) : Fine K m txt ↔ Fine K (m - n) (txt.drop n) := by
  have hread := lexeme_num h
  obtain ⟨c, s, rfl⟩ := List.exists_cons_of_ne_nil (ne_nil_of_num h)
  obtain ⟨hop, hsp⟩ := num_head h
  rw [Fine, operators_of_not_op hm hop hsp s, hread, Fine]

theorem not_fine_stuck {K txt : List Char} (hm : 0 < m) (hne : txt ≠ [])
    (h : lexeme P txt = .stuck) : ¬ Fine K m txt := by
  obtain ⟨c, s, rfl⟩ := List.exists_cons_of_ne_nil hne
  rintro ⟨ops, hops, -⟩
  obtain ⟨hop, hsp, hread⟩ := stuck_head h
  rw [operators_of_not_op (P := P) hm hop hsp s] at hops
  rcases hread with hread | hread <;> rw [hread] at hops <;> cases hops

/-! ### Scans on their way -/

section
variable {s K : List Char} {em : List Entry} {i : ℕ}

def Comes (P : Platform) (s : List Char) (i : ℕ) (em : List Entry) (K : List Char) : Prop :=
  ∃ es, Takes P s 0 es i ∧ yardAll P es [] = some (em, K)

theorem comes_start (P : Platform) (s : List Char) : Comes P s 0 [] [] := ⟨[], .refl 0, rfl⟩

theorem Comes.op (h : Comes P s i em K) (hi : InScan s i) {c : Char} {cs ops K' : List Char}
    (htxt : s.drop i = c :: cs) (hc : isLegalOp c = true) (hop : yardOp P c K = some (ops, K')) :
    Comes P s (i + 1) (em ++ ops.map .op) K' := by
  obtain ⟨es, htakes, hyard⟩ := h
  have hone : yardAll P [.op c] K = some (ops.map .op, K') :=
    yardAll_op_eq_some.mpr ⟨ops, K', [], hop, rfl, (List.append_nil _).symm⟩
  exact ⟨_, htakes.trans (.op hi htxt hc (.refl _)), yardAll_append hyard hone⟩

theorem Comes.blank (h : Comes P s i em K) (hi : InScan s i) {cs : List Char}
    (htxt : s.drop i = ' ' :: cs) : Comes P s (i + 1) em K := by
  obtain ⟨es, htakes, hyard⟩ := h
  have hrest := htakes.trans (.blank hi htxt (.refl _))
  rw [List.append_nil] at hrest
  exact ⟨es, hrest, hyard⟩

theorem Comes.num (h : Comes P s i em K) (hi : InScan s i) {v : CInt} {n : ℕ}
    (hlex : lexeme P (s.drop i) = .num v n) (hn : ((i + n : ℕ) : ℤ) ≤ intMax) :
    Comes P s (i + n) (em ++ [.num v]) K := by
  obtain ⟨es, htakes, hyard⟩ := h
  have hone : yardAll P [.num v] K = some ([.num v], K) :=
    yardAll_num_eq_some.mpr ⟨[], rfl, rfl⟩
  exact ⟨_, htakes.trans (.num hi hlex hn (.refl _)), yardAll_append hyard hone⟩

def Fails (P : Platform) (s : List Char) : Prop :=
  ∃ i em K, Comes P s i em K ∧ InScan s i ∧
    (lexeme P (s.drop i) = .stuck ∨ ∃ cs, s.drop i = ')' :: cs ∧ yardOp P ')' K = none)

/-- A scan that has come to `i` fails, or gets to its end. -/
theorem fails_of_not_fine (h : Comes P s i em K)
    (hbad : ¬ Fine K (scanLen s - i) (s.drop i)) : Fails P s := by
  induction hn : scanLen s - i using Nat.strong_induction_on generalizing i em K with
  | _ n ih =>
    have hi : InScan s i := by
      by_contra hi
      rw [Nat.sub_eq_zero_of_le (not_lt.mp (mt inScan_iff.mpr hi))] at hbad
      exact hbad (fine_zero K _)
    have hm : 0 < scanLen s - i := Nat.sub_pos_of_lt (inScan_iff.mp hi)
    rcases lexeme_cases P (drop_ne_nil hi.lt_length) with
      ⟨c, cs, htxt, hc⟩ | ⟨cs, htxt⟩ | ⟨v, k, hlex⟩ | hlex
    · cases hop : yardOp P c K with
      | none =>
        obtain ⟨-, rfl, -⟩ := yardOp_eq_none_iff.mp hop
        exact ⟨i, em, K, h, hi, .inr ⟨cs, htxt, hop⟩⟩
      | some r =>
        obtain ⟨ops, K'⟩ := r
        refine ih _ (by omega) (h.op hi htxt hc hop) (fun hfine => hbad ?_) rfl
        rw [htxt]
        rw [drop_succ_of_cons htxt, ← Nat.sub_sub] at hfine
        exact (fine_op hm hc K cs).mpr ⟨ops, K', hop, hfine⟩
    · refine ih _ (by omega) (h.blank hi htxt) (fun hfine => hbad ?_) rfl
      rw [htxt]
      rw [drop_succ_of_cons htxt, ← Nat.sub_sub] at hfine
      exact (fine_space K cs).mpr hfine
    · -- the scan ends behind a number that goes on where nothing is counted
      obtain ⟨hpos, -⟩ := num_le_length hi.lt_length hlex
      have hbad' : ¬ Fine K (scanLen s - (i + k)) (s.drop (i + k)) := fun hfine => by
        rw [← Nat.sub_sub, ← List.drop_drop] at hfine
        exact hbad ((fine_num hm hlex).mpr hfine)
      have hin : i + k < scanLen s := by
        by_contra hge
        rw [Nat.sub_eq_zero_of_le (not_lt.mp hge)] at hbad'
        exact hbad' (fine_zero K _)
      have hle := (inScan_iff.mpr hin).index_le
      exact ih _ (by omega) (h.num hi hlex hle) hbad' rfl
    · exact ⟨i, em, K, h, hi, .inl hlex⟩

structure OnTrack (P : Platform) (s : List Char) (i : ℕ) (em : List Entry) (K : List Char) :
    Prop where
  comes : Comes P s i em K
  fine : Fine K (scanLen s - i) (s.drop i)

theorem onTrack_start (h : Fine [] (scanLen s) s) : OnTrack P s 0 [] [] :=
  ⟨comes_start P s, by rwa [Nat.sub_zero, List.drop_zero]⟩

theorem OnTrack.next (h : OnTrack P s i em K) (hi : InScan s i) :
    (∃ c cs ops K', s.drop i = c :: cs ∧ isLegalOp c = true ∧ yardOp P c K = some (ops, K') ∧
      OnTrack P s (i + 1) (em ++ ops.map .op) K') ∨
    (∃ cs, s.drop i = ' ' :: cs ∧ OnTrack P s (i + 1) em K) ∨
    ∃ v n, lexeme P (s.drop i) = .num v n ∧
      (((i + n : ℕ) : ℤ) ≤ intMax → OnTrack P s (i + n) (em ++ [.num v]) K) := by
  have hm : 0 < scanLen s - i := Nat.sub_pos_of_lt (inScan_iff.mp hi)
  have hfine := h.fine
  rcases lexeme_cases P (drop_ne_nil hi.lt_length) with
    ⟨c, cs, htxt, hc⟩ | ⟨cs, htxt⟩ | ⟨v, n, hlex⟩ | hlex
  · rw [htxt] at hfine
    obtain ⟨ops, K', hop, hrest⟩ := (fine_op (P := P) hm hc K cs).mp hfine
    rw [Nat.sub_sub, ← drop_succ_of_cons htxt] at hrest
    exact .inl ⟨c, cs, ops, K', htxt, hc, hop, h.comes.op hi htxt hc hop, hrest⟩
  · rw [htxt] at hfine
    have hrest := (fine_space K cs).mp hfine
    rw [Nat.sub_sub, ← drop_succ_of_cons htxt] at hrest
    exact .inr (.inl ⟨cs, htxt, h.comes.blank hi htxt, hrest⟩)
  · have hrest := (fine_num hm hlex).mp hfine
    rw [Nat.sub_sub, List.drop_drop] at hrest
    exact .inr (.inr ⟨v, n, hlex, fun hn => ⟨h.comes.num hi hlex hn, hrest⟩⟩)
  · exact absurd hfine (not_fine_stuck hm (drop_ne_nil hi.lt_length) hlex)

end

end GoodCommand.Calculator
