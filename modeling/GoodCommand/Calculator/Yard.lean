import GoodCommand.Calculator.Scanner

/-! The operator stack that both calculators keep, as a list with its top first, and the token
sequences of the texts over digits, operators and spaces. -/

namespace GoodCommand.Calculator
open Shunting

def entryText : Entry → List Char
  | .num v => printD v ++ [' ']
  | .op c => [c, ' ']

def text (es : List Entry) : List Char := es.flatMap entryText

@[simp] theorem text_nil : text [] = [] := rfl

@[simp] theorem text_cons (e : Entry) (es : List Entry) : text (e :: es) = entryText e ++ text es :=
  rfl

@[simp] theorem text_append (es fs : List Entry) : text (es ++ fs) = text es ++ text fs := by
  simp [text]

theorem length_text_ops (ops : List Char) : (text (ops.map .op)).length = 2 * ops.length := by
  induction ops with
  | nil => rfl
  | cons c ops ih => simp [entryText, ih]; omega

def table (P : Platform) : Table Char := ⟨prio P, '('⟩

/-- What an operator does to the stack: the operators taken off it, in order, and the new stack. On
the empty stack any operator is pushed, even `)`. Otherwise `)` needs an open parenthesis. -/
def yardOp (P : Platform) (c : Char) (K : List Char) : Option (List Char × List Char) :=
  if K = [] then some ([], [c])
  else if c = '(' then some ([], '(' :: K)
  else if c = ')' then (table P).close K
  else some ((table P).reduce c K)

def yardEntry (P : Platform) : Entry → List Char → Option (List Entry × List Char)
  | .num v, K => some ([.num v], K)
  | .op c, K => (yardOp P c K).map fun r => (r.1.map .op, r.2)

def yardAll (P : Platform) : List Entry → List Char → Option (List Entry × List Char)
  | [], K => some ([], K)
  | e :: es, K => do
    let (em, K) ← yardEntry P e K
    let (em', K) ← yardAll P es K
    return (em ++ em', K)

theorem yardAll_num_eq_some {P : Platform} {v : CInt} {es em : List Entry} {K K' : List Char} :
    yardAll P (.num v :: es) K = some (em, K') ↔
      ∃ em', yardAll P es K = some (em', K') ∧ em = .num v :: em' := by
  cases hes : yardAll P es K with
  | none => simp [yardAll, yardEntry, hes]
  | some r => simp [yardAll, yardEntry, hes]; grind

theorem yardAll_op_eq_some {P : Platform} {c : Char} {es em : List Entry} {K K' : List Char} :
    yardAll P (.op c :: es) K = some (em, K') ↔ ∃ ops K₁ em', yardOp P c K = some (ops, K₁) ∧
      yardAll P es K₁ = some (em', K') ∧ em = ops.map .op ++ em' := by
  simp only [yardAll, yardEntry, Option.bind_eq_bind, Option.bind_eq_some_iff,
    Option.map_eq_some_iff, Option.pure_def, Option.some.injEq, Prod.exists, Prod.mk.injEq]
  constructor
  · rintro ⟨_, K₁, ⟨ops, _, hop, rfl, rfl⟩, em', _, hes, rfl, rfl⟩
    exact ⟨ops, _, em', hop, hes, rfl⟩
  · rintro ⟨ops, K₁, em', hop, hes, rfl⟩
    exact ⟨_, K₁, ⟨ops, _, hop, rfl, rfl⟩, em', _, hes, rfl, rfl⟩

theorem yardAll_num_eq_none {P : Platform} {v : CInt} {es : List Entry} {K : List Char} :
    yardAll P (.num v :: es) K = none ↔ yardAll P es K = none := by
  cases hes : yardAll P es K <;> simp [yardAll, yardEntry, hes]

theorem yardAll_op_eq_none {P : Platform} {c : Char} {es : List Entry} {K ops K₁ : List Char}
    (hop : yardOp P c K = some (ops, K₁)) :
    yardAll P (.op c :: es) K = none ↔ yardAll P es K₁ = none := by
  cases hes : yardAll P es K₁ <;> simp [yardAll, yardEntry, hop, hes]

theorem yardAll_append {P : Platform} {es fs em em' : List Entry} {K K₁ K₂ : List Char}
    (h : yardAll P es K = some (em, K₁)) (h' : yardAll P fs K₁ = some (em', K₂)) :
    yardAll P (es ++ fs) K = some (em ++ em', K₂) := by
  induction es generalizing K em with
  | nil =>
    cases h
    exact h'
  | cons e es ih =>
    cases e with
    | num v =>
      obtain ⟨em₁, hes, rfl⟩ := yardAll_num_eq_some.mp h
      exact yardAll_num_eq_some.mpr ⟨_, ih hes, rfl⟩
    | op c =>
      obtain ⟨ops, K', em₁, hop, hes, rfl⟩ := yardAll_op_eq_some.mp h
      exact yardAll_op_eq_some.mpr ⟨ops, K', _, hop, ih hes, List.append_assoc _ _ _⟩

theorem yardAll_withUndef (P : Platform) (u : Char → CInt → CInt → Option CInt) (es : List Entry)
    (K : List Char) : yardAll (P.withUndef u) es K = yardAll P es K := by
  induction es generalizing K with
  | nil => rfl
  | cons e es ih =>
    have hentry : yardEntry (P.withUndef u) e K = yardEntry P e K := by cases e <;> rfl
    simp only [yardAll, hentry, ih]

/-- The postfix sequence of a token sequence: what is put out, then what is left on the stack. -/
def postfixOf (P : Platform) (es : List Entry) : Option (List Entry) :=
  (yardAll P es []).map fun r => r.1 ++ r.2.map .op

theorem yardOp_length {P : Platform} {c : Char} {K em K' : List Char}
    (h : yardOp P c K = some (em, K')) : em.length + K'.length ≤ K.length + 1 := by
  unfold yardOp at h
  split_ifs at h with h0 h1 h2
  · cases h; simp
  · cases h; simp
  · unfold Table.close at h
    split_ifs at h
    cases h
    have hsum := takeWhile_length_add_dropWhile (fun q => decide (q ≠ (table P).left)) K
    rw [List.length_tail]
    omega
  · cases h
    have hsum := takeWhile_length_add_dropWhile (fun q => (table P).prec c ≤ (table P).prec q) K
    simp only [List.length_cons]
    omega

theorem dropWhile_ne_eq_cons {K : List Char} (h : '(' ∈ K) :
    ∃ L, K.dropWhile (fun q => decide (q ≠ '(')) = '(' :: L := by
  have hne : K.dropWhile (fun q => decide (q ≠ '(')) ≠ [] := by simpa using h
  obtain ⟨q, L, hL⟩ := List.exists_cons_of_ne_nil hne
  have hhead := List.head?_dropWhile_not (fun q => decide (q ≠ '(')) K
  rw [hL] at hhead
  have hq : q = '(' := by simpa using hhead
  exact ⟨L, hq ▸ hL⟩

theorem yardOp_eq_none_iff {P : Platform} {c : Char} {K : List Char} :
    yardOp P c K = none ↔ K ≠ [] ∧ c = ')' ∧ '(' ∉ K := by
  unfold yardOp
  split_ifs with h0 h1 h2
  · simp [h0]
  · simp [h1]
  · rw [close_eq_none_iff]; simp [h0, h2, table]
  · simp [h2]

/-! ### The open parentheses on the stack -/

def IsArith (c : Char) : Prop := c = '+' ∨ c = '-' ∨ c = '*' ∨ c = '/'

theorem isLegalOp_cases {c : Char} (h : isLegalOp c = true) : IsArith c ∨ c = '(' ∨ c = ')' := by
  rcases (isLegalOp_iff c).mp h with h | h | h | h | h | h <;> simp [IsArith, h]

theorem IsArith.ne_left {c : Char} (h : IsArith c) : c ≠ '(' := by
  rintro rfl
  revert h
  simp [IsArith]

theorem IsArith.ne_right {c : Char} (h : IsArith c) : c ≠ ')' := by
  rintro rfl
  revert h
  simp [IsArith]

theorem prio_pos {P : Platform} {c : Char} (h : IsArith c) : 0 < prio P c := by
  rcases h with rfl | rfl | rfl | rfl <;> simp

theorem reduce_split {P : Platform} {c : Char} (h : IsArith c) (A B : List Char) :
    ((A ++ '(' :: B).takeWhile fun q => prio P c ≤ prio P q) =
        A.takeWhile (fun q => prio P c ≤ prio P q) ∧
      ((A ++ '(' :: B).dropWhile fun q => prio P c ≤ prio P q) =
        A.dropWhile (fun q => prio P c ≤ prio P q) ++ '(' :: B := by
  have hpos := prio_pos (P := P) h
  induction A with
  | nil => simp [hpos]
  | cons q A ih =>
    by_cases hq : prio P c ≤ prio P q
    · simpa [hq] using ih
    · simp [hq]

theorem yardOp_arith {P : Platform} {c : Char} (h : IsArith c) (K : List Char) :
    yardOp P c K = some (K.takeWhile fun q => prio P c ≤ prio P q,
      c :: K.dropWhile fun q => prio P c ≤ prio P q) := by
  have h1 := h.ne_left
  have h2 := h.ne_right
  unfold yardOp
  split_ifs with h0
  · simp [h0]
  · rfl

theorem yardOp_left (P : Platform) (K : List Char) : yardOp P '(' K = some ([], '(' :: K) := by
  by_cases h0 : K = [] <;> simp [yardOp, h0]

theorem yardOp_right {P : Platform} {A : List Char} (B : List Char) (hA : '(' ∉ A) :
    yardOp P ')' (A ++ '(' :: B) = some (A, B) := by
  have hne : A ++ '(' :: B ≠ [] := by simp
  unfold yardOp
  rw [if_neg hne, if_neg (by decide), if_pos rfl]
  exact close_left (T := table P) hA

theorem exists_split_of_mem {K : List Char} (h : '(' ∈ K) :
    ∃ A B, K = A ++ '(' :: B ∧ '(' ∉ A := by
  obtain ⟨L, hL⟩ := dropWhile_ne_eq_cons h
  refine ⟨K.takeWhile fun q => decide (q ≠ '('), L, ?_, fun hmem => ?_⟩
  · rw [← hL, List.takeWhile_append_dropWhile]
  · simpa using List.mem_takeWhile_imp hmem

theorem count_reduce {P : Platform} {c : Char} (h : IsArith c) (K : List Char) :
    (c :: K.dropWhile fun q => prio P c ≤ prio P q).count '(' = K.count '(' := by
  have hc := h.ne_left
  have htake : (K.takeWhile fun q => prio P c ≤ prio P q).count '(' = 0 := by
    refine List.count_eq_zero.mpr fun hmem => ?_
    have hle := List.mem_takeWhile_imp hmem
    have hpos := prio_pos (P := P) h
    simp only [prio_left, decide_eq_true_eq] at hle
    omega
  have hsum := congrArg (List.count '(') (List.takeWhile_append_dropWhile
    (p := fun q => decide (prio P c ≤ prio P q)) (l := K))
  rw [List.count_append, htake, Nat.zero_add] at hsum
  rw [List.count_cons_of_ne hc, hsum]

def Legal (es : List Entry) : Prop := ∀ c, Item.op c ∈ es → isLegalOp c = true

theorem yardOp_subset {P : Platform} {c : Char} {K em K' : List Char}
    (h : yardOp P c K = some (em, K')) : em ⊆ c :: K ∧ K' ⊆ c :: K := by
  unfold yardOp at h
  split_ifs at h with h0 h1 h2
  · cases h; simp
  · cases h; simp [h1]
  · unfold Table.close at h
    split_ifs at h
    cases h
    have htail : ((K.dropWhile fun q => decide (q ≠ (table P).left)).tail).Sublist K :=
      (List.tail_sublist _).trans (List.dropWhile_sublist _)
    exact ⟨fun q hq => List.mem_cons_of_mem _ ((List.takeWhile_sublist _).subset hq),
      fun q hq => List.mem_cons_of_mem _ (htail.subset hq)⟩
  · cases h
    exact ⟨fun q hq => List.mem_cons_of_mem _ ((List.takeWhile_sublist _).subset hq),
      List.cons_subset_cons _ (List.dropWhile_sublist _).subset⟩

theorem yardAll_legal {P : Platform} {es em : List Entry} {K K' : List Char}
    (h : yardAll P es K = some (em, K')) (hes : Legal es) (hK : ∀ c ∈ K, isLegalOp c = true) :
    Legal em ∧ ∀ c ∈ K', isLegalOp c = true := by
  induction es generalizing K em with
  | nil =>
    cases h
    exact ⟨by simp [Legal], hK⟩
  | cons e es ih =>
    have hes' : Legal es := fun c hc => hes c (List.mem_cons_of_mem _ hc)
    cases e with
    | num v =>
      obtain ⟨em', hrest, rfl⟩ := yardAll_num_eq_some.mp h
      obtain ⟨hem, hK'⟩ := ih hrest hes' hK
      exact ⟨fun c hc => hem c (by simpa using hc), hK'⟩
    | op c =>
      obtain ⟨ops, K₁, em', hop, hrest, rfl⟩ := yardAll_op_eq_some.mp h
      have hall : ∀ q ∈ c :: K, isLegalOp q = true := by
        rintro q (_ | ⟨_, hq⟩)
        · exact hes c (by simp)
        · exact hK q hq
      obtain ⟨hops, hsub⟩ := yardOp_subset hop
      obtain ⟨hem, hK'⟩ := ih hrest hes' fun q hq => hall q (hsub hq)
      refine ⟨fun q hq => ?_, hK'⟩
      rcases List.mem_append.mp hq with hq | hq
      · obtain ⟨r, hr, hreq⟩ := List.mem_map.mp hq
        exact Item.op.inj hreq ▸ hall r (hops hr)
      · exact hem q hq

theorem postfixOf_legal {P : Platform} {es items : List Entry} (h : postfixOf P es = some items)
    (hes : Legal es) : Legal items := by
  simp only [postfixOf, Option.map_eq_some_iff, Prod.exists] at h
  obtain ⟨em, K, hyard, rfl⟩ := h
  obtain ⟨hem, hK⟩ := yardAll_legal hyard hes (by simp)
  intro c hc
  rcases List.mem_append.mp hc with hc | hc
  · exact hem c hc
  · obtain ⟨q, hq, hreq⟩ := List.mem_map.mp hc
    exact Item.op.inj hreq ▸ hK q hq

/-! ### The numbers of a sequence -/

def values (es : List Entry) : List CInt :=
  es.filterMap fun e => match e with
    | .num v => some v
    | .op _ => none

def numbers (es : List Entry) : ℕ := (values es).length

@[simp] theorem values_nil : values [] = [] := rfl

@[simp] theorem values_num (v : CInt) (es : List Entry) : values (.num v :: es) = v :: values es :=
  rfl

@[simp] theorem values_op (c : Char) (es : List Entry) : values (.op c :: es) = values es := rfl

@[simp] theorem values_append (es fs : List Entry) : values (es ++ fs) = values es ++ values fs :=
  List.filterMap_append

@[simp] theorem values_ops (ops : List Char) : values (ops.map .op) = [] := by
  induction ops with
  | nil => rfl
  | cons c ops ih => exact ih

@[simp] theorem numbers_nil : numbers [] = 0 := rfl

@[simp] theorem numbers_num (v : CInt) (es : List Entry) :
    numbers (.num v :: es) = numbers es + 1 := rfl

@[simp] theorem numbers_op (c : Char) (es : List Entry) : numbers (.op c :: es) = numbers es := rfl

@[simp] theorem numbers_append (es fs : List Entry) :
    numbers (es ++ fs) = numbers es + numbers fs := by simp [numbers]

theorem numbers_le_length (es : List Entry) : numbers es ≤ es.length := List.length_filterMap_le _ _

theorem mem_values {v : CInt} {es : List Entry} : v ∈ values es ↔ Item.num v ∈ es := by
  induction es with
  | nil => simp
  | cons e es ih => cases e <;> simp [ih]

theorem values_yardAll {P : Platform} {es em : List Entry} {K K' : List Char}
    (h : yardAll P es K = some (em, K')) : values em = values es := by
  induction es generalizing K em with
  | nil => cases h; rfl
  | cons e es ih =>
    cases e with
    | num v =>
      obtain ⟨em', hrest, rfl⟩ := yardAll_num_eq_some.mp h
      simp [ih hrest]
    | op c =>
      obtain ⟨ops, K₁, em', -, hrest, rfl⟩ := yardAll_op_eq_some.mp h
      simp [ih hrest]

theorem values_postfixOf {P : Platform} {es items : List Entry}
    (h : postfixOf P es = some items) : values items = values es := by
  simp only [postfixOf, Option.map_eq_some_iff, Prod.exists] at h
  obtain ⟨em, K, hyard, rfl⟩ := h
  rw [values_append, values_ops, values_yardAll hyard, List.append_nil]

/-! ### The library's machine on these tokens -/

def entryTok : Entry → Tok CInt Char
  | .num v => .num v
  | .op c => if c = '(' then .left else if c = ')' then .right else .op c

theorem yardEntry_of_feed {P : Platform} {e : Entry} {K : List Char}
    {r : List Entry × List Char} (h : (table P).feed (entryTok e) K = some r) :
    yardEntry P e K = some r := by
  cases e with
  | num v => exact h
  | op c =>
    simp only [entryTok] at h
    simp only [yardEntry, yardOp]
    split_ifs at h with hl hr
    · cases h
      split_ifs with h0
      · simp [h0, hl, table]
      · simp [table]
    · have h0 : K ≠ [] := by
        rintro rfl
        simp [Table.feed, Table.close] at h
      rw [if_neg h0, if_neg hl, if_pos hr]
      exact h
    · cases h
      split_ifs with h0
      · simp [h0, Table.reduce]
      · rfl

theorem yardAll_of_feedAll {P : Platform} {es : List Entry} {K : List Char}
    {r : List Entry × List Char} (h : (table P).feedAll (es.map entryTok) K = some r) :
    yardAll P es K = some r := by
  induction es generalizing K r with
  | nil => exact h
  | cons e es ih =>
    simp only [List.map_cons, Table.feedAll, Option.bind_eq_bind, Option.bind_eq_some_iff,
      Prod.exists] at h
    obtain ⟨em, K₁, he, em', K₂, hes, hr⟩ := h
    simp only [yardAll, yardEntry_of_feed he, Option.bind_eq_bind, Option.bind_some, ih hes]
    exact hr

/-! ### Token sequences of texts -/

def InAlphabet (s : List Char) : Prop := ∀ c ∈ s, c.isDigit = true ∨ isLegalOp c = true ∨ c = ' '

instance (s : List Char) : Decidable (InAlphabet s) :=
  List.decidableBAll (fun c : Char => c.isDigit = true ∨ isLegalOp c = true ∨ c = ' ') s

/-- The tokens of a text, each number being a maximal run of digits. -/
inductive Lexes (P : Platform) : List Char → List Entry → Prop
  | nil : Lexes P [] []
  | blank {s : List Char} {es : List Entry} : Lexes P s es → Lexes P (' ' :: s) es
  | op {c : Char} {s : List Char} {es : List Entry} : isLegalOp c = true → Lexes P s es →
      Lexes P (c :: s) (.op c :: es)
  | num {ds s : List Char} {es : List Entry} : ds ≠ [] → (∀ d ∈ ds, d.isDigit = true) →
      NoDigit s → Lexes P s es →
      Lexes P (ds ++ s) (.num (P.store (Nat.ofDigitChars 10 ds 0)) :: es)

theorem Lexes.withUndef {P : Platform} {s : List Char} {es : List Entry} (h : Lexes P s es)
    (u : Char → CInt → CInt → Option CInt) : Lexes (P.withUndef u) s es := by
  induction h with
  | nil => exact .nil
  | blank _ ih => exact .blank ih
  | op hc _ ih => exact .op hc ih
  | num hne hds hs _ ih => exact .num hne hds hs ih

theorem Lexes.legal {P : Platform} {s : List Char} {es : List Entry} (h : Lexes P s es) :
    Legal es := by
  induction h with
  | nil => simp [Legal]
  | blank _ ih => exact ih
  | op hc _ ih => exact fun q hq => by rcases List.mem_cons.mp hq with h | h <;> grind [Legal]
  | num _ _ _ _ ih => exact fun q hq => ih q (by simpa using hq)

theorem exists_digits {c : Char} (hc : c.isDigit = true) (cs : List Char) :
    ∃ ds rest, c :: cs = ds ++ rest ∧ ds ≠ [] ∧ (∀ d ∈ ds, d.isDigit = true) ∧ NoDigit rest := by
  refine ⟨_, _, (List.takeWhile_append_dropWhile (p := Char.isDigit) (l := c :: cs)).symm, ?_,
    fun d hd => List.mem_takeWhile_imp hd, fun d hd => ?_⟩
  · simp [hc]
  · have hhead := List.head?_dropWhile_not Char.isDigit (c :: cs)
    rw [Option.mem_def] at hd
    simpa [hd] using hhead

theorem NoDigit.mono {s t : List Char} (h : NoDigit s) (ht : t <+: s) : NoDigit t := by
  obtain ⟨u, rfl⟩ := ht
  cases t with
  | nil => simp [NoDigit]
  | cons c t => exact fun d hd => h d (by simpa using hd)

theorem exists_lexes (P : Platform) {s : List Char} (hs : InAlphabet s) : ∃ es, Lexes P s es := by
  induction hn : s.length using Nat.strong_induction_on generalizing s with
  | _ n ih =>
    cases s with
    | nil => exact ⟨[], .nil⟩
    | cons c cs =>
      have hcs : InAlphabet cs := fun d hd => hs d (by simp [hd])
      have hlen : cs.length < n := by rw [← hn]; simp
      rcases hs c (by simp) with hd | ho | rfl
      · obtain ⟨ds, rest, hsplit, hne, hds, hrest⟩ := exists_digits hd cs
        have hpos := List.length_pos_of_ne_nil hne
        rw [hsplit] at hs hn ⊢
        obtain ⟨es, hes⟩ := ih rest.length (by rw [← hn, List.length_append]; omega)
          (fun d hd' => hs d (List.mem_append_right _ hd')) rfl
        exact ⟨_, .num hne hds hrest hes⟩
      · obtain ⟨es, hes⟩ := ih _ hlen hcs rfl
        exact ⟨_, .op ho hes⟩
      · obtain ⟨es, hes⟩ := ih _ hlen hcs rfl
        exact ⟨es, .blank hes⟩

theorem lexeme_op {P : Platform} {c : Char} (s : List Char) (h : isLegalOp c = true) :
    lexeme P (c :: s) = .op c := by simp [lexeme, h]

theorem lexeme_blank (P : Platform) (s : List Char) : lexeme P (' ' :: s) = .blank := by
  simp [lexeme, show isLegalOp ' ' = false by decide]

theorem lexeme_of_sscanfD {P : Platform} {c : Char} {s : List Char} {v : CInt} {n : ℕ}
    (hop : isLegalOp c = false) (hsp : c ≠ ' ') (h : sscanfD P (c :: s) = .read v n) :
    lexeme P (c :: s) = .num v n := by simp [lexeme, hop, hsp, h]

theorem lexeme_digits {P : Platform} {ds s : List Char} (hne : ds ≠ [])
    (hds : ∀ d ∈ ds, d.isDigit = true) (hs : NoDigit s) :
    lexeme P (ds ++ s) = .num (P.store (Nat.ofDigitChars 10 ds 0)) ds.length := by
  have hread : sscanfD P (ds ++ s) = .read (P.store (Nat.ofDigitChars 10 ds 0)) ds.length := by
    rw [sscanfD, scanInt_digits hne hds hs]
  obtain ⟨c, cs, rfl⟩ := List.exists_cons_of_ne_nil hne
  have hc := hds c (by simp)
  exact lexeme_of_sscanfD (not_isLegalOp_of_isDigit hc) (ne_of_isDigit hc (by decide)) hread

end GoodCommand.Calculator
