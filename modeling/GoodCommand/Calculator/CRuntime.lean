import GoodCommand.Library.CInt

/-! What the two calculators use of C: the arithmetic of `int` and the conversions of `sscanf` and
`sprintf`. A C string is the list of its characters before the terminating NUL. -/

namespace GoodCommand.Calculator

inductive Fault where
  | stackIndex (i : ℤ)
  | bufferIndex (i : ℕ)
  | numOpIndex (i : ℕ)
  | scanIndex (i : ℕ)
  | nullPointer
  | unsetPointer
  | unset
  | trap
  deriving DecidableEq

/-- What the C standard leaves to the platform: the `int` that `"%d"` stores for a decimal out of
range, the outcome of arithmetic without a defined result (`none` is a trap), and the uninitialised
local that `prio` returns for a character none of its tests match. -/
structure Platform where
  wide : ℤ → CInt
  undef : Char → CInt → CInt → Option CInt
  indet : Char → ℤ

namespace Platform

variable (P : Platform)

def store (z : ℤ) : CInt := (CInt.ofInt? z).getD (P.wide z)

def undefined (op : Char) (a b : CInt) : Except Fault CInt :=
  match P.undef op a b with
  | some r => .ok r
  | none => .error .trap

def result (op : Char) (a b : CInt) (z : ℤ) : Except Fault CInt :=
  match CInt.ofInt? z with
  | some r => .ok r
  | none => P.undefined op a b

def add (a b : CInt) : Except Fault CInt := P.result '+' a b (a.val + b.val)

def sub (a b : CInt) : Except Fault CInt := P.result '-' a b (a.val - b.val)

def mul (a b : CInt) : Except Fault CInt := P.result '*' a b (a.val * b.val)

def div (a b : CInt) : Except Fault CInt :=
  if b.val = 0 then P.undefined '/' a b else P.result '/' a b (a.val.tdiv b.val)

theorem store_val (v : CInt) : P.store v.val = v := by rw [store, CInt.ofInt?_val]; rfl

theorem result_ok (op : Char) (a b : CInt) {z : ℤ} (h : intMin ≤ z ∧ z ≤ intMax) :
    P.result op a b z = .ok ⟨z, h⟩ := by rw [result, CInt.ofInt?_eq_some h]

theorem undefined_error {op : Char} {a b : CInt} {e : Fault} (h : P.undefined op a b = .error e) :
    e = .trap := by
  unfold undefined at h
  split at h <;> cases h
  rfl

theorem result_error {op : Char} {a b : CInt} {z : ℤ} {e : Fault}
    (h : P.result op a b z = .error e) : e = .trap := by
  unfold result at h
  split at h
  · cases h
  · exact P.undefined_error h

def withUndef (undef : Char → CInt → CInt → Option CInt) : Platform := { P with undef := undef }

/-- The platform on which every undefined operation stops the program. -/
def strict : Platform := P.withUndef fun _ _ _ => none

def total : Platform := P.withUndef fun _ _ _ => some CInt.zero

theorem result_total (op : Char) (a b : CInt) (z : ℤ) :
    ∃ r, P.total.result op a b z = .ok r := by
  unfold result
  split
  · exact ⟨_, rfl⟩
  · exact ⟨CInt.zero, rfl⟩

theorem result_of_strict {op : Char} {a b r : CInt} {z : ℤ} (h : P.strict.result op a b z = .ok r) :
    P.result op a b z = .ok r := by
  unfold result at h ⊢
  split at h
  · exact h
  · cases h

end Platform

/-- An x86 machine with glibc: `strtol` saturates at 64 bits before the value is cut to 32, sums and
products wrap, and a division without a result traps. The local that `prio` leaves unset may have
any value; here it is 0. -/
def x86 : Platform where
  wide z := CInt.wrap (max (-9223372036854775808) (min z 9223372036854775807))
  undef op a b :=
    match op with
    | '+' => some (CInt.wrap (a.val + b.val))
    | '-' => some (CInt.wrap (a.val - b.val))
    | '*' => some (CInt.wrap (a.val * b.val))
    | _ => none
  indet _ := 0

/-! ### Lengths and indices -/

/-- `int str_len = strlen(s)`. -/
def strLen (s : List Char) : CInt := CInt.wrap s.length

/-- The cells that an array of `str_len` has. -/
def scanLen (s : List Char) : ℕ := (strLen s).val.toNat

/-- `scand_index < str_len`. -/
abbrev InScan (s : List Char) (i : ℕ) : Prop := (i : ℤ) < (strLen s).val

/-- `scand_index += n`, which the C standard leaves undefined where the sum is no `int`. -/
def advance (i n : ℕ) : Except Fault ℕ :=
  if ((i + n : ℕ) : ℤ) ≤ intMax then .ok (i + n) else .error (.scanIndex (i + n))

theorem strLen_of_le {s : List Char} (h : (s.length : ℤ) ≤ intMax) : (strLen s).val = s.length :=
  CInt.wrap_natCast h

theorem scanLen_of_le {s : List Char} (h : (s.length : ℤ) ≤ intMax) : scanLen s = s.length := by
  rw [scanLen, strLen_of_le h, Int.toNat_natCast]

theorem inScan_iff {s : List Char} {i : ℕ} : InScan s i ↔ i < scanLen s := by
  unfold scanLen
  omega

theorem inScan_of_le {s : List Char} {i : ℕ} (h : (s.length : ℤ) ≤ intMax) :
    InScan s i ↔ i < s.length := by rw [inScan_iff, scanLen_of_le h]

theorem InScan.lt_length {s : List Char} {i : ℕ} (h : InScan s i) : i < s.length := by
  have hle : (strLen s).val ≤ s.length := CInt.wrap_le (Int.natCast_nonneg _)
  have hlt : (i : ℤ) < (strLen s).val := h
  omega

theorem advance_ok {i n : ℕ} (h : ((i + n : ℕ) : ℤ) ≤ intMax) : advance i n = .ok (i + n) :=
  if_pos h

theorem advance_error {i n : ℕ} (h : ¬ ((i + n : ℕ) : ℤ) ≤ intMax) :
    advance i n = .error (.scanIndex (i + n)) := if_neg h

theorem InScan.succ_le {s : List Char} {i : ℕ} (h : InScan s i) : ((i + 1 : ℕ) : ℤ) ≤ intMax := by
  have hmax := (strLen s).property.2
  have hlt : (i : ℤ) < (strLen s).val := h
  push_cast
  omega

theorem InScan.advance {s : List Char} {i : ℕ} (h : InScan s i) : advance i 1 = .ok (i + 1) :=
  advance_ok h.succ_le

theorem advance_eq_ok {i n k : ℕ} (h : advance i n = .ok k) :
    k = i + n ∧ ((i + n : ℕ) : ℤ) ≤ intMax := by
  unfold advance at h
  split_ifs at h with hle
  cases h
  exact ⟨rfl, hle⟩

theorem InScan.index_le {s : List Char} {i : ℕ} (h : InScan s i) : (i : ℤ) ≤ intMax := by
  have hmax := (strLen s).property.2
  have hlt : (i : ℤ) < (strLen s).val := h
  omega

/-! ### Characters -/

def isLegalOp (c : Char) : Bool :=
  c == '+' || c == '-' || c == '*' || c == '/' || c == '(' || c == ')'

def prio (P : Platform) (op : Char) : ℤ :=
  let priority := P.indet op
  let priority := if op = '*' ∨ op = '/' then 2 else priority
  let priority := if op = '+' ∨ op = '-' then 1 else priority
  let priority := if op = '(' then 0 else priority
  priority

/-- `isspace` of the C locale. -/
def isSpace (c : Char) : Bool :=
  c == ' ' || c == '\t' || c == '\n' || c == '\x0b' || c == '\x0c' || c == '\r'

@[simp] theorem prio_left (P : Platform) : prio P '(' = 0 := by simp [prio]

@[simp] theorem prio_add (P : Platform) : prio P '+' = 1 := by simp [prio]

@[simp] theorem prio_sub (P : Platform) : prio P '-' = 1 := by simp [prio]

@[simp] theorem prio_mul (P : Platform) : prio P '*' = 2 := by simp [prio]

@[simp] theorem prio_div (P : Platform) : prio P '/' = 2 := by simp [prio]

theorem isLegalOp_iff (c : Char) : isLegalOp c = true ↔
    c = '+' ∨ c = '-' ∨ c = '*' ∨ c = '/' ∨ c = '(' ∨ c = ')' := by
  simp [isLegalOp, or_assoc]

theorem not_isDigit_of_isLegalOp {c : Char} (h : isLegalOp c = true) : c.isDigit = false := by
  rcases (isLegalOp_iff c).mp h with rfl | rfl | rfl | rfl | rfl | rfl <;> decide

theorem ne_of_isDigit {c d : Char} (hc : c.isDigit = true) (hd : d.isDigit = false) : c ≠ d := by
  rintro rfl
  rw [hc] at hd
  cases hd

theorem not_isSpace_of_isDigit {c : Char} (h : c.isDigit = true) : isSpace c = false := by
  have hn : ∀ d : Char, d.isDigit = false → c ≠ d := fun d => ne_of_isDigit h
  simp [isSpace, hn ' ' (by decide), hn '\t' (by decide), hn '\n' (by decide),
    hn '\x0b' (by decide), hn '\x0c' (by decide), hn '\r' (by decide)]

theorem not_isLegalOp_of_isDigit {c : Char} (h : c.isDigit = true) : isLegalOp c = false := by
  by_contra hl
  rw [not_isDigit_of_isLegalOp (by simpa using hl)] at h
  cases h

/-! ### Conversions -/

/-- The outcome of one conversion of `sscanf`: the value it stores and, from `%n`, the number of
characters read. -/
inductive Conv (α : Type) where
  | eof
  | noMatch
  | read (val : α) (n : ℕ)

def Conv.ret {α : Type} : Conv α → ℤ
  | .eof => -1
  | .noMatch => 0
  | .read _ _ => 1

/-- The digits of a `"%d"` match; `before` characters of blanks and sign precede them. -/
def scanDigits (neg : Bool) (before : ℕ) (txt : List Char) : Conv ℤ :=
  let digits := txt.takeWhile Char.isDigit
  let value : ℤ := Nat.ofDigitChars 10 digits 0
  if digits = [] then .noMatch
  else .read (if neg then -value else value) (before + digits.length)

/-- The decimal that `"%d"` matches: blanks, an optional sign, then as many digits as there are. -/
def scanInt (txt : List Char) : Conv ℤ :=
  let skipped := (txt.takeWhile isSpace).length
  match txt.dropWhile isSpace with
  | [] => .eof
  | '-' :: cs => scanDigits true (skipped + 1) cs
  | '+' :: cs => scanDigits false (skipped + 1) cs
  | c :: cs => scanDigits false skipped (c :: cs)

/-- `sscanf(txt, "%d%n", &cu_num, &read_num)`. -/
def sscanfD (P : Platform) (txt : List Char) : Conv CInt :=
  match scanInt txt with
  | .eof => .eof
  | .noMatch => .noMatch
  | .read z n => .read (P.store z) n

/-- `sscanf(txt, "%c%n", &cu_op, &read_op)`. -/
def sscanfC : List Char → Conv Char
  | [] => .eof
  | c :: _ => .read c 1

/-- The characters that `sprintf` writes for `"%d"`. -/
def printD (v : CInt) : List Char :=
  if v.val < 0 then '-' :: Nat.toDigits 10 v.val.natAbs else Nat.toDigits 10 v.val.natAbs

def NoDigit (txt : List Char) : Prop := ∀ c ∈ txt.head?, c.isDigit = false

theorem takeWhile_isDigit {ds rest : List Char} (hds : ∀ d ∈ ds, d.isDigit = true)
    (hrest : NoDigit rest) : (ds ++ rest).takeWhile Char.isDigit = ds := by
  rw [List.takeWhile_append_of_pos hds]
  cases rest with
  | nil => simp
  | cons c cs => simp [hrest c (by simp)]

theorem scanDigits_eq (neg : Bool) (before : ℕ) {ds rest : List Char} (hne : ds ≠ [])
    (hds : ∀ d ∈ ds, d.isDigit = true) (hrest : NoDigit rest) :
    scanDigits neg before (ds ++ rest) =
      .read (if neg then -(Nat.ofDigitChars 10 ds 0 : ℤ) else Nat.ofDigitChars 10 ds 0)
        (before + ds.length) := by
  rw [scanDigits, takeWhile_isDigit hds hrest, if_neg hne]

theorem scanInt_of_isDigit {c : Char} {cs : List Char} (hc : c.isDigit = true) :
    scanInt (c :: cs) = scanDigits false 0 (c :: cs) := by
  have hsp := not_isSpace_of_isDigit hc
  have hm := ne_of_isDigit hc (d := '-') (by decide)
  have hp := ne_of_isDigit hc (d := '+') (by decide)
  simp only [scanInt, List.dropWhile_cons, hsp, List.takeWhile_cons]
  split <;> simp_all

theorem scanInt_digits {ds rest : List Char} (hne : ds ≠ []) (hds : ∀ d ∈ ds, d.isDigit = true)
    (hrest : NoDigit rest) :
    scanInt (ds ++ rest) = .read (Nat.ofDigitChars 10 ds 0) ds.length := by
  have h := scanDigits_eq false 0 hne hds hrest
  obtain ⟨c, cs, rfl⟩ := List.exists_cons_of_ne_nil hne
  rw [List.cons_append, scanInt_of_isDigit (hds c (by simp)), ← List.cons_append, h]
  simp

theorem scanInt_neg_digits {ds rest : List Char} (hne : ds ≠ [])
    (hds : ∀ d ∈ ds, d.isDigit = true) (hrest : NoDigit rest) :
    scanInt ('-' :: (ds ++ rest)) = .read (-(Nat.ofDigitChars 10 ds 0 : ℤ)) (ds.length + 1) := by
  have hsp : isSpace '-' = false := by decide
  have h := scanDigits_eq true 1 hne hds hrest
  rw [if_pos rfl, Nat.add_comm] at h
  simpa [scanInt, List.dropWhile_cons, hsp, List.takeWhile_cons] using h

theorem toDigits_isDigit (n : ℕ) : ∀ d ∈ Nat.toDigits 10 n, d.isDigit = true :=
  fun _ hd => Nat.isDigit_of_mem_toDigits (by decide) (by decide) hd

theorem scanInt_printD (v : CInt) {rest : List Char} (hrest : NoDigit rest) :
    scanInt (printD v ++ rest) = .read v.val (printD v).length := by
  unfold printD
  split
  · next hneg =>
    rw [List.cons_append, scanInt_neg_digits Nat.toDigits_ne_nil (toDigits_isDigit _) hrest,
      Nat.ofDigitChars_ten_toDigits, List.length_cons]
    congr
    omega
  · next hneg =>
    rw [scanInt_digits Nat.toDigits_ne_nil (toDigits_isDigit _) hrest,
      Nat.ofDigitChars_ten_toDigits]
    congr
    omega

theorem sscanfD_printD (P : Platform) (v : CInt) {rest : List Char} (hrest : NoDigit rest) :
    sscanfD P (printD v ++ rest) = .read v (printD v).length := by
  rw [sscanfD, scanInt_printD v hrest]
  simp only [P.store_val]

end GoodCommand.Calculator
