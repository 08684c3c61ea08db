import GoodCommand.Calculator.Correctness
import GoodCommand.Calculator.Closing

/-! Texts with tabs. A tab is no blank to the scanners, but `"%d"` skips it, and takes a sign behind
it for that of a number. -/

namespace GoodCommand.Calculator
open Fuel Shunting

variable {P : Platform} {s : List Char} {es : List Entry}

def InTabAlphabet (s : List Char) : Prop :=
  ∀ c ∈ s, c.isDigit = true ∨ isLegalOp c = true ∨ c = ' ' ∨ c = '\t'

instance (s : List Char) : Decidable (InTabAlphabet s) :=
  List.decidableBAll (fun c : Char => c.isDigit = true ∨ isLegalOp c = true ∨ c = ' ' ∨ c = '\t') s

/-- Every tab replaced by a space. -/
def untab (s : List Char) : List Char := s.map fun c => if c = '\t' then ' ' else c

/-- A `+` or `-` comes after a tab with nothing but spaces and tabs between. The first argument
tells whether such a tab has come. -/
def signAfterTab : Bool → List Char → Bool
  | _, [] => false
  | tab, c :: s =>
    if c = '\t' then signAfterTab true s
    else if c = ' ' then signAfterTab tab s
    else (tab && (c == '+' || c == '-')) || signAfterTab false s

theorem untab_cons {c : Char} (hc : c ≠ '\t') (s : List Char) : untab (c :: s) = c :: untab s := by
  simp [untab, hc]

theorem untab_append (s t : List Char) : untab (s ++ t) = untab s ++ untab t := List.map_append

theorem untab_digits {ds : List Char} (hds : ∀ d ∈ ds, d.isDigit = true) : untab ds = ds := by
  induction ds with
  | nil => rfl
  | cons d ds ih =>
    rw [untab_cons (ne_of_isDigit (hds d (by simp)) (by decide)),
      ih fun c hc => hds c (List.mem_cons_of_mem _ hc)]

theorem length_untab (s : List Char) : (untab s).length = s.length := List.length_map _

theorem noDigit_untab (h : NoDigit s) : NoDigit (untab s) := by
  cases s with
  | nil => exact h
  | cons c s =>
    have hc := h c (by simp)
    by_cases ht : c = '\t'
    · subst ht
      simp [untab, NoDigit]
    · rw [untab_cons ht]
      exact noDigit_cons _ hc

theorem signAfterTab_blanks {bl : List Char} (hbl : ∀ c ∈ bl, c = ' ' ∨ c = '\t') (tab : Bool)
    (s : List Char) : signAfterTab tab (bl ++ s) = signAfterTab (tab || bl.contains '\t') s := by
  induction bl generalizing tab with
  | nil => simp
  | cons c bl ih =>
    have hrest := ih fun d hd => hbl d (List.mem_cons_of_mem _ hd)
    rcases hbl c (by simp) with rfl | rfl
    · simp [signAfterTab, hrest]
    · simp [signAfterTab, hrest]

theorem signAfterTab_op {c : Char} (hc : isLegalOp c = true) (s : List Char) :
    signAfterTab false (c :: s) = signAfterTab false s := by
  rcases (isLegalOp_iff c).mp hc with rfl | rfl | rfl | rfl | rfl | rfl <;> rfl

theorem signAfterTab_digits {ds : List Char} (hne : ds ≠ []) (hds : ∀ d ∈ ds, d.isDigit = true)
    (tab : Bool) (s : List Char) : signAfterTab tab (ds ++ s) = signAfterTab false s := by
  induction ds generalizing tab with
  | nil => exact absurd rfl hne
  | cons d ds ih =>
    have hd := hds d (by simp)
    have hn : ∀ c : Char, c.isDigit = false → d ≠ c := fun c => ne_of_isDigit hd
    have hfirst : signAfterTab tab (d :: (ds ++ s)) = signAfterTab false (ds ++ s) := by
      simp [signAfterTab, hn '\t' (by decide), hn ' ' (by decide), hn '+' (by decide),
        hn '-' (by decide)]
    rw [List.cons_append, hfirst]
    by_cases hnil : ds = []
    · rw [hnil, List.nil_append]
    · exact ih hnil (fun c hc => hds c (List.mem_cons_of_mem _ hc)) false

/-! ### Numbers in texts with tabs -/

theorem Lexes.blanks {bl : List Char} (hbl : ∀ c ∈ bl, c = ' ' ∨ c = '\t')
    (h : Lexes P (untab s) es) : Lexes P (untab (bl ++ s)) es := by
  induction bl with
  | nil => exact h
  | cons c bl ih =>
    have hrest := ih fun d hd => hbl d (List.mem_cons_of_mem _ hd)
    have hc : (if c = '\t' then ' ' else c) = ' ' := by
      rcases hbl c (by simp) with rfl | rfl <;> rfl
    rw [List.cons_append, untab, List.map_cons, hc]
    exact .blank hrest

theorem num_of_inTabAlphabet (hs : InTabAlphabet s) {v : CInt} {n : ℕ}
    (h : lexeme P s = .num v n) :
    ∃ bl sg ds rest, s = bl ++ sg ++ ds ++ rest ∧ (∀ c ∈ bl, c = ' ' ∨ c = '\t') ∧ ds ≠ [] ∧
      (∀ d ∈ ds, d.isDigit = true) ∧ NoDigit rest ∧ n = (bl ++ sg ++ ds).length ∧
      (sg = [] ∧ v = P.store (Nat.ofDigitChars 10 ds 0) ∨
        '\t' ∈ bl ∧ (sg = ['+'] ∨ sg = ['-'])) := by
  obtain ⟨z, hz, rfl⟩ := sscanfD_read (lexeme_num h)
  obtain ⟨bl, sg, ds, rest, rfl, hsp, hne, hds, hrest, hn, hval⟩ := scanInt_read hz
  have hbl : ∀ c ∈ bl, c = ' ' ∨ c = '\t' := by
    intro c hc
    have hspace := hsp c hc
    rcases hs c (by simp [hc]) with hd | ho | hblank
    · rw [not_isSpace_of_isDigit hd] at hspace
      cases hspace
    · rcases (isLegalOp_iff c).mp ho with rfl | rfl | rfl | rfl | rfl | rfl <;> cases hspace
    · exact hblank
  have hsign : ∀ c : Char, isLegalOp c = true → sg = [c] → '\t' ∈ bl := by
    rintro c hc rfl
    cases bl with
    | nil => rw [(num_head h).1] at hc; cases hc
    | cons b bl =>
      rcases hbl b (by simp) with rfl | rfl
      · exact absurd rfl (num_head h).2
      · simp
  refine ⟨bl, sg, ds, rest, rfl, hbl, hne, hds, hrest, hn, ?_⟩
  rcases hval with ⟨hsg | hsg, hzv⟩ | ⟨hsg, -⟩
  · exact .inl ⟨hsg, by rw [hzv]⟩
  · exact .inr ⟨hsign '+' (by decide) hsg, .inl hsg⟩
  · exact .inr ⟨hsign '-' (by decide) hsg, .inr hsg⟩

theorem num_of_signAfterTab (hs : InTabAlphabet s) (htab : signAfterTab false s = false) {v : CInt}
    {n : ℕ} (h : lexeme P s = .num v n) :
    ∃ bl ds rest, s = bl ++ ds ++ rest ∧ (∀ c ∈ bl, c = ' ' ∨ c = '\t') ∧ ds ≠ [] ∧
      (∀ d ∈ ds, d.isDigit = true) ∧ NoDigit rest ∧ n = (bl ++ ds).length ∧
      v = P.store (Nat.ofDigitChars 10 ds 0) := by
  obtain ⟨bl, sg, ds, rest, rfl, hbl, hne, hds, hrest, hn, ⟨rfl, hv⟩ | ⟨hmem, hsg⟩⟩ :=
    num_of_inTabAlphabet hs h
  · rw [List.append_nil] at hn ⊢
    exact ⟨bl, ds, rest, rfl, hbl, hne, hds, hrest, hn, hv⟩
  · -- behind the tab the sign would have been seen
    have hcontains : bl.contains '\t' = true := by simpa using hmem
    rw [List.append_assoc, List.append_assoc, signAfterTab_blanks hbl, hcontains] at htab
    rcases hsg with rfl | rfl <;> cases htab

/-! ### The tokens of a scan -/

def AllBlank (s : List Char) : Prop := ∀ c ∈ s, c = ' ' ∨ c = '\t'

theorem AllBlank.drop_of_le {i j : ℕ} (h : AllBlank (s.drop i)) (hij : i ≤ j) :
    AllBlank (s.drop j) := fun c hc => h c (by
  obtain ⟨k, rfl⟩ := Nat.exists_eq_add_of_le hij
  rw [← List.drop_drop] at hc
  exact List.mem_of_mem_drop hc)

theorem allBlank_untab : AllBlank (untab s) ↔ AllBlank s := by
  constructor
  · intro h c hc
    rcases h _ (List.mem_map_of_mem hc) with heq | heq
    · by_cases ht : c = '\t'
      · exact .inr ht
      · rw [if_neg ht] at heq
        exact .inl heq
    · split at heq
      · cases heq
      · exact .inr heq
  · intro h c hc
    obtain ⟨d, hd, rfl⟩ := List.mem_map.mp hc
    rcases h d hd with rfl | rfl <;> exact .inl rfl

theorem AllBlank.lexes_untab (h : AllBlank s) : Lexes P (untab s) [] := by
  rw [← List.append_nil s]
  exact Lexes.blanks h .nil

theorem Lexes.allBlank (h : Lexes P s []) : AllBlank s := by
  generalize hes : ([] : List Entry) = es at h
  induction h with
  | nil => simp [AllBlank]
  | blank _ ih => exact fun c hc => (List.mem_cons.mp hc).elim .inl (ih hes c)
  | op _ _ _ => cases hes
  | num _ _ _ _ _ => cases hes

theorem Lexes.of_blank (h : Lexes P (' ' :: s) es) : Lexes P s es := by
  generalize htxt : ' ' :: s = txt at h
  cases h with
  | nil => cases htxt
  | blank h =>
    cases htxt
    exact h
  | op hc _ =>
    cases htxt
    cases hc
  | num hne hds _ _ =>
    obtain ⟨d, ds, rfl⟩ := List.exists_cons_of_ne_nil hne
    cases htxt
    exact absurd (hds ' ' (by simp)) (by decide)

theorem Lexes.of_op {c : Char} {e : Entry} (hc : isLegalOp c = true)
    (h : Lexes P (c :: s) (e :: es)) : e = .op c ∧ Lexes P s es := by
  generalize htxt : c :: s = txt at h
  generalize hes : e :: es = fs at h
  cases h with
  | nil => cases htxt
  | blank _ =>
    cases htxt
    cases hc
  | op _ h =>
    cases htxt
    cases hes
    exact ⟨rfl, h⟩
  | num hne hds _ _ =>
    obtain ⟨d, ds, rfl⟩ := List.exists_cons_of_ne_nil hne
    cases htxt
    rw [not_isLegalOp_of_isDigit (hds c (by simp))] at hc
    cases hc

theorem Lexes.of_num {ds rest : List Char} {e : Entry} (hne : ds ≠ [])
    (hds : ∀ d ∈ ds, d.isDigit = true) (hrest : NoDigit rest)
    (h : Lexes P (ds ++ rest) (e :: es)) : Lexes P rest es := by
  have hlex := lexeme_digits (P := P) hne hds hrest
  generalize htxt : ds ++ rest = txt at h hlex
  generalize hes : e :: es = fs at h
  cases h with
  | nil => cases hes
  | blank _ =>
    rw [lexeme_blank] at hlex
    cases hlex
  | op hc _ =>
    rw [lexeme_op _ hc] at hlex
    cases hlex
  | num hne' hds' hrest' h =>
    rw [lexeme_digits hne' hds' hrest'] at hlex
    cases hes
    injection hlex with _ hlen
    obtain ⟨-, rfl⟩ := List.append_inj htxt hlen.symm
    exact h

theorem Lexes.of_blanks {bl : List Char} (hbl : AllBlank bl) (h : Lexes P (untab (bl ++ s)) es) :
    Lexes P (untab s) es := by
  induction bl with
  | nil => exact h
  | cons c bl ih =>
    have hc : (if c = '\t' then ' ' else c) = ' ' := by
      rcases hbl c (by simp) with rfl | rfl <;> rfl
    rw [List.cons_append, untab, List.map_cons, hc] at h
    exact ih (fun d hd => hbl d (List.mem_cons_of_mem _ hd)) h.of_blank

section
variable {i j : ℕ}

theorem InTabAlphabet.drop (hs : InTabAlphabet s) (i : ℕ) : InTabAlphabet (s.drop i) :=
  fun c hc => hs c (List.mem_of_mem_drop hc)

theorem Takes.lexes_untab (h : Takes P s i es j) (hs : InTabAlphabet s)
    (htab : signAfterTab false (s.drop i) = false) (hrest : AllBlank (s.drop j)) :
    Lexes P (untab (s.drop i)) es := by
  induction h with
  | refl => exact hrest.lexes_untab
  | blank _ htxt _ ih =>
    rw [htxt] at htab ⊢
    rw [drop_succ_of_cons htxt] at ih
    exact .blank (ih htab hrest)
  | op _ htxt hc _ ih =>
    rw [htxt, signAfterTab_op hc] at htab
    rw [drop_succ_of_cons htxt] at ih
    rw [htxt, untab_cons (by rintro rfl; cases hc)]
    exact .op hc (ih htab hrest)
  | num _ hlex _ _ ih =>
    obtain ⟨bl, ds, rest, htxt, hbl, hne, hds, hrun, hn, rfl⟩ :=
      num_of_signAfterTab (hs.drop _) htab hlex
    rw [htxt, List.append_assoc, signAfterTab_blanks hbl, signAfterTab_digits hne hds] at htab
    rw [hn, drop_add_of_append htxt] at ih
    rw [htxt, List.append_assoc]
    refine Lexes.blanks hbl ?_
    rw [untab_append, untab_digits hds]
    exact .num hne hds (noDigit_untab hrun) (ih htab hrest)

theorem Takes.of_lexes_untab (h : Takes P s i es j) (hs : InTabAlphabet s)
    (hlex : Lexes P (untab (s.drop i)) es) :
    signAfterTab false (s.drop i) = false ∧ AllBlank (s.drop j) := by
  induction h with
  | refl =>
    have hblank := allBlank_untab.mp hlex.allBlank
    refine ⟨?_, hblank⟩
    rw [← List.append_nil (s.drop _), signAfterTab_blanks hblank]
    rfl
  | blank _ htxt _ ih =>
    rw [htxt] at hlex ⊢
    rw [drop_succ_of_cons htxt] at ih
    exact ih hlex.of_blank
  | op _ htxt hc _ ih =>
    rw [htxt, untab_cons (by rintro rfl; cases hc)] at hlex
    rw [drop_succ_of_cons htxt] at ih
    rw [htxt, signAfterTab_op hc]
    exact ih (hlex.of_op hc).2
  | num _ hnum _ _ ih =>
    obtain ⟨bl, sg, ds, rest, htxt, hbl, hne, hds, hrun, hn, hsg⟩ :=
      num_of_inTabAlphabet (hs.drop _) hnum
    rw [htxt, List.append_assoc, List.append_assoc] at hlex
    have hbehind := Lexes.of_blanks hbl hlex
    rcases hsg with ⟨rfl, rfl⟩ | ⟨-, rfl | rfl⟩
    · rw [List.append_nil] at htxt hn
      rw [hn, drop_add_of_append htxt] at ih
      rw [List.nil_append, untab_append, untab_digits hds] at hbehind
      rw [htxt, List.append_assoc, signAfterTab_blanks hbl, signAfterTab_digits hne hds]
      exact ih (hbehind.of_num hne hds (noDigit_untab hrun))
    -- the sign is a token of the text with spaces
    · cases (hbehind.of_op (c := '+') rfl).1
    · cases (hbehind.of_op (c := '-') rfl).1

end

/-! ### What the scans see -/

theorem length_seenFrom_append_le (m : ℕ) (run : Bool) (w : List Char) {rest : List Char}
    (hrest : NoDigit rest) :
    (seenFrom m run (w ++ rest)).length ≤
      w.length + (seenFrom (m - w.length) false rest).length := by
  induction w generalizing m run with
  | nil =>
    cases run with
    | false => simp
    | true => rw [List.nil_append, seenFrom_noDigit hrest]; simp
  | cons c w ih =>
    rw [List.cons_append, seenFrom]
    split
    · have hle := ih (m - 1) c.isDigit
      rw [Nat.sub_sub, Nat.add_comm 1] at hle
      simp only [List.length_cons]
      omega
    · exact Nat.zero_le _

theorem length_seenFrom_le_of_blank {m : ℕ} (run : Bool) {w : List Char} (hw : AllBlank w)
    (hne : w ≠ []) (hm : m ≤ w.length) (rest : List Char) :
    (seenFrom m run (w ++ rest)).length ≤ w.length := by
  induction w generalizing m run with
  | nil => exact absurd rfl hne
  | cons c w ih =>
    have hc : c.isDigit = false := by rcases hw c (by simp) with rfl | rfl <;> rfl
    rw [List.length_cons] at hm ⊢
    rw [List.cons_append, seenFrom, hc]
    split
    · by_cases hnil : w = []
      · subst hnil
        rw [List.length_nil] at hm
        have hend : seenFrom (m - 1) false ([] ++ rest) = [] := by
          rw [Nat.sub_eq_zero_of_le hm, List.nil_append]
          cases rest <;> simp [seenFrom]
        rw [hend, List.length_singleton]
        exact Nat.le_add_left _ _
      · have hle := @ih (m - 1) false (fun d hd => hw d (List.mem_cons_of_mem _ hd)) hnil (by omega)
        rw [List.length_cons]
        omega
    · exact Nat.zero_le _

theorem seenFrom_untab (m : ℕ) (run : Bool) (s : List Char) :
    seenFrom m run (untab s) = untab (seenFrom m run s) := by
  induction s generalizing m run with
  | nil => rfl
  | cons c s ih =>
    have hd : (if c = '\t' then ' ' else c).isDigit = c.isDigit := by
      split
      · next h => subst h; rfl
      · rfl
    rw [untab, List.map_cons, seenFrom, seenFrom, hd]
    split
    · rw [untab, List.map_cons, ← untab, ← untab, ih]
    · rfl

theorem untab_blanks {bl : List Char} (hbl : AllBlank bl) :
    untab bl = List.replicate bl.length ' ' := by
  induction bl with
  | nil => rfl
  | cons c bl ih =>
    have hc : (if c = '\t' then ' ' else c) = ' ' := by
      rcases hbl c (by simp) with rfl | rfl <;> rfl
    have hrest := ih fun d hd => hbl d (List.mem_cons_of_mem _ hd)
    rw [untab, List.map_cons, hc, List.length_cons, List.replicate_succ, ← hrest]
    rfl

theorem strLen_untab (s : List Char) : strLen (untab s) = strLen s := by
  rw [strLen, strLen, length_untab]

theorem scanLen_untab (s : List Char) : scanLen (untab s) = scanLen s := by
  rw [scanLen, scanLen, strLen_untab]

theorem inScan_untab {i : ℕ} : InScan (untab s) i ↔ InScan s i := by
  rw [inScan_iff, inScan_iff, scanLen_untab]

theorem length_seen_untab (s : List Char) : (seen (untab s)).length = (seen s).length := by
  rw [seen, seen, scanLen_untab, seenFrom_untab, length_untab]

theorem drop_untab (s : List Char) (i : ℕ) : (untab s).drop i = untab (s.drop i) :=
  List.map_drop.symm

theorem InTabAlphabet.inAlphabet (hs : InTabAlphabet s) : InAlphabet (untab s) := by
  intro c hc
  obtain ⟨d, hd, rfl⟩ := List.mem_map.mp hc
  split
  · exact .inr (.inr rfl)
  · next hne => exact (hs d hd).imp_right fun h => h.imp_right fun h => h.resolve_right hne

section
variable {i j : ℕ}

theorem length_seenFrom_cons_le (m : ℕ) (run : Bool) {c : Char} (hc : c.isDigit = false)
    (s : List Char) :
    (seenFrom m run (c :: s)).length ≤ (seenFrom (m - 1) false s).length + 1 := by
  rw [seenFrom, hc]
  split
  · exact le_rfl
  · exact Nat.zero_le _

theorem Takes.seen_le (h : Takes P s i es j) (hj : ¬ InScan s j) :
    i + (seenFrom (scanLen s - i) false (s.drop i)).length ≤ j := by
  induction h with
  | refl j =>
    rw [Nat.sub_eq_zero_of_le (not_lt.mp (mt inScan_iff.mpr hj))]
    cases s.drop j <;> simp [seenFrom]
  | @blank i j cs es hi htxt _ ih =>
    have hle := length_seenFrom_cons_le (scanLen s - i) false (c := ' ') rfl cs
    have hrest := ih hj
    rw [drop_succ_of_cons htxt] at hrest
    rw [Nat.sub_sub] at hle
    rw [htxt]
    omega
  | @op i j c cs es hi htxt hc _ ih =>
    have hle := length_seenFrom_cons_le (scanLen s - i) false
      (not_isDigit_of_isLegalOp hc) cs
    have hrest := ih hj
    rw [drop_succ_of_cons htxt] at hrest
    rw [Nat.sub_sub] at hle
    rw [htxt]
    omega
  | @num i j n v es hi hlex _ _ ih =>
    obtain ⟨-, hn⟩ := num_le_length hi.lt_length hlex
    have hle := length_seenFrom_append_le (scanLen s - i) false
      ((s.drop i).take n) (noDigit_of_num hlex)
    have hrest := ih hj
    have hlen : ((s.drop i).take n).length = n := by
      rw [List.length_take, List.length_drop]
      omega
    rw [List.take_append_drop, hlen, Nat.sub_sub, List.drop_drop] at hle
    omega

theorem Takes.index_le (h : Takes P s i es j) (hi : (i : ℤ) ≤ intMax) : (j : ℤ) ≤ intMax := by
  induction h with
  | refl => exact hi
  | blank hin _ _ ih => exact ih hin.succ_le
  | op hin _ _ _ ih => exact ih hin.succ_le
  | num _ _ hn _ ih => exact ih hn

theorem Scans.seen_le (h : Scans P s es j) : (seen s).length ≤ j := by
  have hle := h.takes.seen_le h.ends
  rw [Nat.zero_add, Nat.sub_zero, List.drop_zero] at hle
  exact hle

theorem Scans.le_seen (h : Scans P s es j) (hs : InAlphabet s) : j ≤ (seen s).length := by
  obtain ⟨fs, -, hscan, -⟩ := exists_scan P hs
  have hj := h.takes.index_le (by decide)
  by_cases hseen : ((seen s).length : ℤ) ≤ intMax
  · exact (h.unique (hscan hseen)).2.le
  · omega

theorem num_untab (hs : InTabAlphabet s) (htab : signAfterTab false (s.drop i) = false)
    (hrest : AllBlank (s.drop (seen s).length)) (hi : InScan s i) {v : CInt} {n : ℕ}
    (hlex : lexeme P (s.drop i) = .num v n) :
    ∃ k m cs, n = k + m ∧ (untab s).drop i = List.replicate k ' ' ++ cs ∧
      InScan s (i + k) ∧ lexeme P ((untab s).drop (i + k)) = .num v m := by
  obtain ⟨bl, ds, rest, htxt, hbl, hne, hds, hrun, hn, rfl⟩ :=
    num_of_signAfterTab (hs.drop _) htab hlex
  refine ⟨bl.length, ds.length, ds ++ untab rest, by rw [hn, List.length_append], ?_, ?_, ?_⟩
  · rw [drop_untab, htxt, List.append_assoc, untab_append, untab_append, untab_digits hds,
      untab_blanks hbl]
  · by_contra hend
    have hbound : scanLen s ≤ i + bl.length := not_lt.mp (mt inScan_iff.mpr hend)
    have hblanks : bl ≠ [] := by
      rintro rfl
      exact hend hi
    have hhead : NoDigit (bl ++ (ds ++ rest)) := by
      obtain ⟨b, bl, rfl⟩ := List.exists_cons_of_ne_nil hblanks
      refine noDigit_cons _ ?_
      rcases hbl b (by simp) with rfl | rfl <;> rfl
    rw [List.append_assoc] at htxt
    have hsplit := length_seenFrom_append_le (scanLen s) false (s.take i) hhead
    have hseen := length_seenFrom_le_of_blank (m := scanLen s - (s.take i).length) false
      hbl hblanks (by rw [List.length_take]; have := hi.lt_length; omega) (ds ++ rest)
    rw [← htxt, List.take_append_drop] at hsplit
    rw [← htxt] at hseen
    have htake := List.length_take_le i s
    have hle : (seen s).length ≤ i + bl.length := by
      rw [seen]
      omega
    have hdigits := hrest.drop_of_le hle
    rw [drop_add_of_append htxt] at hdigits
    obtain ⟨d, ds, rfl⟩ := List.exists_cons_of_ne_nil hne
    have hd := hds d (by simp)
    rcases hdigits d (by simp) with rfl | rfl <;> cases hd
  · rw [drop_untab, ← List.drop_drop, htxt, List.append_assoc, List.drop_left, untab_append,
      untab_digits hds]
    exact lexeme_digits hne hds (noDigit_untab hrun)

theorem signAfterTab_next (hs : InTabAlphabet s) (hi : InScan s i)
    (htab : signAfterTab false (s.drop i) = false) :
    signAfterTab false (s.drop (nextIndex P s i)) = false := by
  rcases lexeme_cases P (drop_ne_nil hi.lt_length) with
    ⟨c, cs, htxt, hc⟩ | ⟨cs, htxt⟩ | ⟨v, n, hlex⟩ | hlex
  · rw [nextIndex_op (by rw [htxt, lexeme_op cs hc]), drop_succ_of_cons htxt]
    rwa [htxt, signAfterTab_op hc] at htab
  · rw [nextIndex_blank (by rw [htxt, lexeme_blank]), drop_succ_of_cons htxt]
    rwa [htxt] at htab
  · obtain ⟨bl, ds, rest, htxt, hbl, hne, hds, -, hn, -⟩ :=
      num_of_signAfterTab (hs.drop _) htab hlex
    rw [nextIndex_num hlex, hn, drop_add_of_append htxt]
    rwa [htxt, List.append_assoc, signAfterTab_blanks hbl, signAfterTab_digits hne hds] at htab
  · rwa [nextIndex_stuck hlex]

end

/-! ### The scans -/

theorem signAfterTab_untab (s : List Char) : signAfterTab false (untab s) = false := by
  induction s with
  | nil => rfl
  | cons c s ih =>
    by_cases ht : c = '\t'
    · subst ht
      exact ih
    · rw [untab_cons ht, signAfterTab, if_neg ht, ih]
      simp

theorem untab_untab (s : List Char) : untab (untab s) = untab s := by
  rw [untab, untab, List.map_map]
  refine List.map_congr_left fun c _ => ?_
  by_cases ht : c = '\t' <;> simp [ht]

theorem InTabAlphabet.untab (hs : InTabAlphabet s) : InTabAlphabet (Calculator.untab s) :=
  fun c hc => (hs.inAlphabet c hc).imp_right fun h => h.imp_right .inl

/-- No sign stands behind a tab, and the scans come to everything but blanks. -/
def ReadsTabs (s : List Char) : Prop :=
  signAfterTab false s = false ∧ AllBlank (s.drop (seen s).length)

theorem ReadsTabs.untab (h : ReadsTabs s) : ReadsTabs (Calculator.untab s) :=
  ⟨signAfterTab_untab s, by rw [length_seen_untab, drop_untab]; exact allBlank_untab.mpr h.2⟩

section
variable {j j' : ℕ} {es' : List Entry}

theorem ReadsTabs.lexes (h : ReadsTabs s) (hs : InTabAlphabet s) (hscan : Scans P s es j) :
    Lexes P (Calculator.untab s) es :=
  hscan.takes.lexes_untab hs h.1 (h.2.drop_of_le hscan.seen_le)

theorem readsTabs_of_lexes (hs : InTabAlphabet s) (hscan : Scans P s es j)
    (hlex : Lexes P (untab s) es) (hscan' : Scans P (untab s) es' j')
    (hlex' : Lexes P (untab s) es') : ReadsTabs s := by
  refine ⟨(hscan.takes.of_lexes_untab hs hlex).1, ?_⟩
  rw [← untab_untab] at hlex'
  have hrest := (hscan'.takes.of_lexes_untab hs.untab hlex').2
  have hle := hscan'.le_seen hs.inAlphabet
  rw [length_seen_untab] at hle
  have hseen := hrest.drop_of_le hle
  rw [drop_untab] at hseen
  exact allBlank_untab.mp hseen

theorem Written.postfixOf_of_lexes {e : Expr} (h : Written 1 e s) (hlex : Lexes P s es) :
    Calculator.postfixOf P es = some e.postorder ∧ es ≠ [] := by
  obtain ⟨es', hlex', hpost⟩ := h.postfixOf P
  obtain rfl := hlex.splits.unique hlex'.splits
  refine ⟨hpost, ?_⟩
  rintro rfl
  cases e <;> simp [Calculator.postfixOf, yardAll, Expr.postorder] at hpost

end

namespace StringStack

/-- The scanning loop of `mtob` ends. -/
def Ends (P : Platform) (s : List Char) (g : Globals) : Prop :=
  ∃ st r, mtobStart s g = .ok st ∧ Returns (loop (mtobBody P s) st) r

/-- The scan of `mtob` takes every operator of the text, and every run of digits as one number. -/
def TakesTokens (P : Platform) (s : List Char) (g : Globals) : Prop :=
  ∃ st es r, mtobStart s g = .ok st ∧
    Trace (mtobBody P s) (fun st => taken P (s.drop st.scandIndex)) st es r ∧ Lexes P (untab s) es

/-- With spaces for the tabs an expression has the same value. -/
def SameValue (P : Platform) (s : List Char) (g : Globals) : Prop :=
  ∀ e v, Written 1 e (untab s) → ((∃ g', Returns (calculate P s g) (v, g')) ↔
    ∃ g', Returns (calculate P (untab s) g) (v, g'))

variable {g : Globals} {st st' : Scan}

theorem scans_of_mtobBody {r : Option Scan} (hst : mtobStart s g = .ok st)
    (h : Trace (mtobBody P s) (fun st => taken P (s.drop st.scandIndex)) st es r) :
    ∃ j, Scans P s es j := by
  obtain ⟨j, htakes, hj⟩ := takes_of_trace Scan.scandIndex (fun _ _ hret => mtobBody_next hret)
    (fun _ _ hret => mtobBody_exit hret) h
  rw [mtobStart_index hst] at htakes
  exact ⟨j, htakes, hj⟩

theorem mtobStart_untab (s : List Char) (g : Globals) : mtobStart (untab s) g = mtobStart s g := by
  simp only [mtobStart, strLen_untab]

theorem mtobBody_spaces {k : ℕ} {cs : List Char}
    (htxt : s.drop st.scandIndex = List.replicate k ' ' ++ cs)
    (hi : st.scandIndex + k ≤ scanLen s) :
    Iterates (mtobBody P s) k st { st with scandIndex := st.scandIndex + k } := by
  induction k generalizing st with
  | zero => exact .zero st
  | succ k ih =>
    rw [List.replicate_succ, List.cons_append] at htxt
    have hin : InScan s st.scandIndex := inScan_iff.mpr (by omega)
    have hrest := @ih { st with scandIndex := st.scandIndex + 1 } (drop_succ_of_cons htxt)
      (by show st.scandIndex + 1 + k ≤ scanLen s; omega)
    rw [show st.scandIndex + (k + 1) = st.scandIndex + 1 + k by omega]
    exact hrest.head (returns_of_eq (mtobBody_blank hin htxt))

theorem emitNum_setIndex {v : CInt} (h : emitNum v st = .ok st') (i : ℕ) :
    emitNum v { st with scandIndex := i } = .ok { st' with scandIndex := i } := by
  obtain ⟨b, hb, h⟩ := bind_ok h
  cases h
  simp only [emitNum, hb]
  rfl

theorem mtobBody_untab (hs : InTabAlphabet s) (hrest : AllBlank (s.drop (seen s).length))
    (htab : signAfterTab false (s.drop st.scandIndex) = false)
    (h : Returns (mtobBody P s st) (.next st')) :
    ∃ k, Iterates (mtobBody P (untab s)) k st st' := by
  have hi := (mtobBody_next h).1
  have hi' := inScan_untab.mpr hi
  rcases lexeme_cases P (drop_ne_nil hi.lt_length) with
    ⟨c, cs, htxt, hc⟩ | ⟨cs, htxt⟩ | ⟨v, n, hlex⟩ | hlex
  · have htxt' : (untab s).drop st.scandIndex = c :: untab cs := by
      rw [drop_untab, htxt, untab_cons (by rintro rfl; cases hc)]
    rw [mtobBody_op hi htxt hc, ← mtobBody_op hi' htxt' hc] at h
    exact ⟨1, .succ (.zero st) h⟩
  · have htxt' : (untab s).drop st.scandIndex = ' ' :: untab cs := by
      rw [drop_untab, htxt, untab_cons (by decide)]
    rw [mtobBody_blank hi htxt, ← mtobBody_blank (P := P) hi' htxt'] at h
    exact ⟨1, .succ (.zero st) h⟩
  · obtain ⟨k, m, cs, rfl, htxt, hin, hnum⟩ := num_untab hs htab hrest hi hlex
    rw [mtobBody_num hi hlex] at h
    obtain ⟨st₁, hst₁, h⟩ := (steady_lift _).of_returns_bind h
    obtain ⟨i, hadv, h⟩ := (steady_lift _).of_returns_bind h
    cases of_returns_pure h
    obtain ⟨rfl, hle⟩ := advance_eq_ok (of_returns_lift hadv)
    have hspaces := mtobBody_spaces (P := P) htxt (by
      rw [scanLen_untab]
      exact (inScan_iff.mp hin).le)
    have hidx := emitNum_index (of_returns_lift hst₁)
    have hemit := emitNum_setIndex (of_returns_lift hst₁) (st.scandIndex + k)
    have hsum : st₁.scandIndex + (k + m) = st.scandIndex + k + m := by rw [hidx, Nat.add_assoc]
    rw [hsum] at hle ⊢
    refine ⟨k + 1, hspaces.succ ?_⟩
    have hlast : advance (st.scandIndex + k) m = .ok (st.scandIndex + k + m) := advance_ok hle
    have hin' : InScan (untab s) { st with scandIndex := st.scandIndex + k }.scandIndex :=
      inScan_untab.mpr hin
    rw [mtobBody_num hin' hnum]
    exact (returns_lift hemit).bind ((returns_lift hlast).bind (returns_pure _))
  · rw [mtobBody_stuck hi hlex] at h
    cases of_returns_pure h
    exact ⟨0, .zero st⟩

theorem Ends.untab (h : Ends P s g) (hs : InTabAlphabet s) (hread : ReadsTabs s) :
    Ends P (Calculator.untab s) g := by
  obtain ⟨st, r, hst, hret⟩ := h
  obtain ⟨es, htrace⟩ := exists_trace (steady_mtobBody P s) (fun _ => ([] : List Entry)) hret
  have htab : signAfterTab false (s.drop st.scandIndex) = false := by
    rw [mtobStart_index hst]
    exact hread.1
  refine ⟨st, r, by rw [mtobStart_untab, hst], ?_⟩
  clear hret hst
  induction htrace with
  | exit hret =>
    have hi := mtobBody_exit hret
    rw [mtobBody_done hi, ← mtobBody_done (P := P) (mt inScan_untab.mp hi)] at hret
    exact returns_loop_exit hret
  | next hret _ ih =>
    obtain ⟨hi, hidx, -⟩ := mtobBody_next hret
    obtain ⟨k, hk⟩ := mtobBody_untab hs hread.2 htab hret
    exact hk.returns_loop (ih (hidx ▸ signAfterTab_next hs hi htab))

theorem Ends.takesTokens (h : Ends P s g) (hs : InTabAlphabet s) (hread : ReadsTabs s) :
    TakesTokens P s g := by
  obtain ⟨st, r, hst, hret⟩ := h
  obtain ⟨es, htrace⟩ := exists_trace (steady_mtobBody P s) _ hret
  obtain ⟨j, hscan⟩ := scans_of_mtobBody hst htrace
  exact ⟨st, es, r, hst, htrace, hread.lexes hs hscan⟩

theorem TakesTokens.scans (h : TakesTokens P s g) :
    ∃ es j, Scans P s es j ∧ Lexes P (Calculator.untab s) es := by
  obtain ⟨st, es, r, hst, htrace, hlex⟩ := h
  obtain ⟨j, hscan⟩ := scans_of_mtobBody hst htrace
  exact ⟨es, j, hscan, hlex⟩

theorem sameValue_of_scans {j j' : ℕ} (hscan : Scans P s es j) (hscan' : Scans P (untab s) es j')
    (hlex : Lexes P (untab s) es) {st : Scan} (hst : mtobStart s g = .ok st) (hg : g.it.val = -1) :
    SameValue P s g := by
  intro e v he
  obtain ⟨hpost, hne⟩ := he.postfixOf_of_lexes hlex
  have hsize := sized_of_start hst (hscan.takes.inScan hne)
  have hsize' : Sized (untab s) := by rwa [Sized, strLen_untab]
  by_cases hfit : TextFits s e.postorder
  · have hfit' : TextFits (untab s) e.postorder := by rwa [TextFits, scanLen_untab]
    rw [calculate_returns_iff hsize hscan hpost hfit hg,
      calculate_returns_iff hsize' hscan' hpost hfit' hg]
  · have hfit' : ¬ TextFits (untab s) e.postorder := by rwa [TextFits, scanLen_untab]
    obtain ⟨f, hf⟩ := (noText_of_overrun hsize hscan hpost hfit hg).calculate_faults
    obtain ⟨f', hf'⟩ := (noText_of_overrun hsize' hscan' hpost hfit' hg).calculate_faults
    constructor
    · rintro ⟨g', hret⟩
      exact absurd hf hret.not_faults
    · rintro ⟨g', hret⟩
      exact absurd hf' hret.not_faults

end StringStack

namespace DoubleStack

/-- The scanning loop of `calculate` ends. -/
def Ends (P : Platform) (s : List Char) : Prop :=
  ∃ r, Returns (loop (calculateBody P s) (calculateStart s)) r

def TakesTokens (P : Platform) (s : List Char) : Prop :=
  ∃ es r, Trace (calculateBody P s) (fun st => taken P (s.drop st.scandIndex)) (calculateStart s)
    es r ∧ Lexes P (untab s) es

def SameValue (P : Platform) (s : List Char) : Prop :=
  ∀ e v, Written 1 e (untab s) → ((∃ st, Returns (calculate P s) (v, st)) ↔
    ∃ st, Returns (calculate P (untab s)) (v, st))

variable {st st' : Scan}

theorem scans_of_calculateBody {r : Pair}
    (h : Trace (calculateBody P s) (fun st => taken P (s.drop st.scandIndex)) (calculateStart s)
      es r) : ∃ j, Scans P s es j := by
  obtain ⟨j, htakes, hj⟩ := takes_of_trace Scan.scandIndex
    (fun _ _ hret => calculateBody_next hret) (fun _ _ hret => calculateBody_exit hret) h
  exact ⟨j, htakes, hj⟩

theorem calculateStart_untab (s : List Char) : calculateStart (untab s) = calculateStart s := by
  rw [calculateStart, calculateStart, strLen_untab]

theorem calculateBody_spaces {k : ℕ} {cs : List Char}
    (htxt : s.drop st.scandIndex = List.replicate k ' ' ++ cs)
    (hi : st.scandIndex + k ≤ scanLen s) :
    Iterates (calculateBody P s) k st { st with scandIndex := st.scandIndex + k } := by
  induction k generalizing st with
  | zero => exact .zero st
  | succ k ih =>
    rw [List.replicate_succ, List.cons_append] at htxt
    have hin : InScan s st.scandIndex := inScan_iff.mpr (by omega)
    have hrest := @ih { st with scandIndex := st.scandIndex + 1 } (drop_succ_of_cons htxt)
      (by show st.scandIndex + 1 + k ≤ scanLen s; omega)
    rw [show st.scandIndex + (k + 1) = st.scandIndex + 1 + k by omega]
    exact hrest.head (returns_of_eq (calculateBody_blank hin htxt))

theorem calculateBody_untab (hs : InTabAlphabet s) (hrest : AllBlank (s.drop (seen s).length))
    (htab : signAfterTab false (s.drop st.scandIndex) = false)
    (h : Returns (calculateBody P s st) (.next st')) :
    ∃ k, Iterates (calculateBody P (untab s)) k st st' := by
  have hi := (calculateBody_next h).1
  have hi' := inScan_untab.mpr hi
  rcases lexeme_cases P (drop_ne_nil hi.lt_length) with
    ⟨c, cs, htxt, hc⟩ | ⟨cs, htxt⟩ | ⟨v, n, hlex⟩ | hlex
  · have htxt' : (untab s).drop st.scandIndex = c :: untab cs := by
      rw [drop_untab, htxt, untab_cons (by rintro rfl; cases hc)]
    rw [calculateBody_op hi htxt hc, ← calculateBody_op hi' htxt' hc] at h
    exact ⟨1, .succ (.zero st) h⟩
  · have htxt' : (untab s).drop st.scandIndex = ' ' :: untab cs := by
      rw [drop_untab, htxt, untab_cons (by decide)]
    rw [calculateBody_blank hi htxt, ← calculateBody_blank (P := P) hi' htxt'] at h
    exact ⟨1, .succ (.zero st) h⟩
  · obtain ⟨k, m, cs, rfl, htxt, hin, hnum⟩ := num_untab hs htab hrest hi hlex
    rw [calculateBody_num hi hlex] at h
    obtain ⟨npst, hpush, h⟩ := (steady_lift _).of_returns_bind h
    obtain ⟨i, hadv, h⟩ := (steady_lift _).of_returns_bind h
    cases of_returns_pure h
    obtain ⟨rfl, hle⟩ := advance_eq_ok (of_returns_lift hadv)
    have hspaces := calculateBody_spaces (P := P) htxt (by
      rw [scanLen_untab]
      exact (inScan_iff.mp hin).le)
    rw [← Nat.add_assoc] at hle ⊢
    refine ⟨k + 1, hspaces.succ ?_⟩
    have hlast : advance (st.scandIndex + k) m = .ok (st.scandIndex + k + m) := advance_ok hle
    have hin' : InScan (untab s) { st with scandIndex := st.scandIndex + k }.scandIndex :=
      inScan_untab.mpr hin
    rw [calculateBody_num hin' hnum]
    exact hpush.bind ((returns_lift hlast).bind (returns_pure _))
  · rw [calculateBody_stuck hi hlex] at h
    cases of_returns_pure h
    exact ⟨0, .zero st⟩

theorem Ends.untab (h : Ends P s) (hs : InTabAlphabet s) (hread : ReadsTabs s) :
    Ends P (Calculator.untab s) := by
  obtain ⟨r, hret⟩ := h
  obtain ⟨es, htrace⟩ := exists_trace (steady_calculateBody P s) (fun _ => ([] : List Entry)) hret
  have htab : signAfterTab false (s.drop (calculateStart s).scandIndex) = false := hread.1
  rw [Ends, calculateStart_untab]
  refine ⟨r, ?_⟩
  clear hret
  generalize calculateStart s = st at htrace htab ⊢
  induction htrace with
  | exit hret =>
    have hi := calculateBody_exit hret
    rw [calculateBody_done hi, ← calculateBody_done (P := P) (mt inScan_untab.mp hi)] at hret
    exact returns_loop_exit hret
  | next hret _ ih =>
    obtain ⟨hi, hidx, -⟩ := calculateBody_next hret
    obtain ⟨k, hk⟩ := calculateBody_untab hs hread.2 htab hret
    exact hk.returns_loop (ih (hidx ▸ signAfterTab_next hs hi htab))

theorem Ends.takesTokens (h : Ends P s) (hs : InTabAlphabet s) (hread : ReadsTabs s) :
    TakesTokens P s := by
  obtain ⟨r, hret⟩ := h
  obtain ⟨es, htrace⟩ := exists_trace (steady_calculateBody P s) _ hret
  obtain ⟨j, hscan⟩ := scans_of_calculateBody htrace
  exact ⟨es, r, htrace, hread.lexes hs hscan⟩

theorem TakesTokens.scans (h : TakesTokens P s) :
    ∃ es j, Scans P s es j ∧ Lexes P (Calculator.untab s) es := by
  obtain ⟨es, r, htrace, hlex⟩ := h
  obtain ⟨j, hscan⟩ := scans_of_calculateBody htrace
  exact ⟨es, j, hscan, hlex⟩

theorem sameValue_of_scans {j j' : ℕ} (hscan : Scans P s es j) (hscan' : Scans P (untab s) es j')
    (hlex : Lexes P (untab s) es) : SameValue P s := by
  intro e v he
  obtain ⟨hpost, hne⟩ := he.postfixOf_of_lexes hlex
  have hpos : 0 < (strLen s).val := hscan.takes.inScan hne
  rw [calculate_returns_iff hscan hpost hpos,
    calculate_returns_iff hscan' hpost (by rwa [strLen_untab]), strLen_untab]

end DoubleStack

/-- Where the scan of one of the programs ends, it takes the tokens of the text, and those of the
text with spaces for its tabs, and the values are the same, exactly when no sign stands behind a tab
and nothing but blanks is behind what is seen. -/
theorem tabs_read_as_spaces_iff (P : Platform) (hs : InTabAlphabet s) {g : StringStack.Globals}
    (hg : g.it.val = -1) :
    (StringStack.Ends P s g →
      ((StringStack.TakesTokens P s g ∧ StringStack.TakesTokens P (untab s) g ∧
        StringStack.SameValue P s g) ↔ ReadsTabs s)) ∧
    (DoubleStack.Ends P s →
      ((DoubleStack.TakesTokens P s ∧ DoubleStack.TakesTokens P (untab s) ∧
        DoubleStack.SameValue P s) ↔ ReadsTabs s)) := by
  refine ⟨fun hends => ⟨fun h => ?_, fun h => ?_⟩, fun hends => ⟨fun h => ?_, fun h => ?_⟩⟩
  · obtain ⟨es, j, hscan, hlex⟩ := h.1.scans
    obtain ⟨es', j', hscan', hlex'⟩ := h.2.1.scans
    exact readsTabs_of_lexes hs hscan hlex hscan' (untab_untab s ▸ hlex')
  · have htakes := hends.takesTokens hs h
    have htakes' := (hends.untab hs h).takesTokens hs.untab h.untab
    obtain ⟨es, j, hscan, hlex⟩ := htakes.scans
    obtain ⟨es', j', hscan', hlex'⟩ := htakes'.scans
    rw [untab_untab] at hlex'
    obtain rfl := hlex.splits.unique hlex'.splits
    obtain ⟨st, r, hst, -⟩ := hends
    exact ⟨htakes, htakes', StringStack.sameValue_of_scans hscan hscan' hlex hst hg⟩
  · obtain ⟨es, j, hscan, hlex⟩ := h.1.scans
    obtain ⟨es', j', hscan', hlex'⟩ := h.2.1.scans
    exact readsTabs_of_lexes hs hscan hlex hscan' (untab_untab s ▸ hlex')
  · have htakes := hends.takesTokens hs h
    have htakes' := (hends.untab hs h).takesTokens hs.untab h.untab
    obtain ⟨es, j, hscan, hlex⟩ := htakes.scans
    obtain ⟨es', j', hscan', hlex'⟩ := htakes'.scans
    rw [untab_untab] at hlex'
    obtain rfl := hlex.splits.unique hlex'.splits
    exact ⟨htakes, htakes', DoubleStack.sameValue_of_scans hscan hscan' hlex⟩

theorem tabs_read_as_spaces_iff_sample :
    ((StringStack.TakesTokens x86 ['1', '+', '\t', '2'] .initial ∧
        StringStack.TakesTokens x86 (untab ['1', '+', '\t', '2']) .initial ∧
        StringStack.SameValue x86 ['1', '+', '\t', '2'] .initial) ↔
      ReadsTabs ['1', '+', '\t', '2']) ∧
    ((DoubleStack.TakesTokens x86 ['1', '+', '\t', '2'] ∧
        DoubleStack.TakesTokens x86 (untab ['1', '+', '\t', '2']) ∧
        DoubleStack.SameValue x86 ['1', '+', '\t', '2']) ↔ ReadsTabs ['1', '+', '\t', '2']) := by
  obtain ⟨hmtob, hcalculate⟩ :=
    tabs_read_as_spaces_iff x86 (s := ['1', '+', '\t', '2']) (by decide)
      (show StringStack.Globals.initial.it.val = -1 from rfl)
  exact ⟨hmtob ⟨_, _, StringStack.mtobStart_eq (StringStack.sized_of_length (by decide)) _,
      (steady_loop (StringStack.steady_mtobBody _ _) _).returns (n := 10) rfl⟩,
    hcalculate ⟨_, (steady_loop (DoubleStack.steady_calculateBody _ _) _).returns (n := 10) rfl⟩⟩

/-- In `1<tab>-2` the minus is taken with the 2, and the value is -2. -/
theorem minus_behind_tab_is_swallowed :
    InTabAlphabet ['1', '\t', '-', '2'] ∧
      StringStack.Ends x86 ['1', '\t', '-', '2'] .initial ∧
      DoubleStack.Ends x86 ['1', '\t', '-', '2'] ∧
      ¬ StringStack.TakesTokens x86 ['1', '\t', '-', '2'] .initial ∧
      ¬ DoubleStack.TakesTokens x86 ['1', '\t', '-', '2'] ∧
      (∃ v st, Returns (DoubleStack.calculate x86 ['1', '\t', '-', '2']) (v, st) ∧ v.val = -2) ∧
      ∃ v st, Returns (DoubleStack.calculate x86 ['1', ' ', '-', '2']) (v, st) ∧ v.val = -1 := by
  have hs : InTabAlphabet ['1', '\t', '-', '2'] := by decide
  have hsign : ∀ {es : List Entry} {j : ℕ}, Scans x86 ['1', '\t', '-', '2'] es j →
      ¬ Lexes x86 (untab ['1', '\t', '-', '2']) es := fun hscan hlex =>
    absurd (hscan.takes.of_lexes_untab hs hlex).1 (by decide)
  refine ⟨hs, ⟨_, _, StringStack.mtobStart_eq (StringStack.sized_of_length (by decide)) _,
      (steady_loop (StringStack.steady_mtobBody _ _) _).returns (n := 10) rfl⟩,
    ⟨_, (steady_loop (DoubleStack.steady_calculateBody _ _) _).returns (n := 10) rfl⟩,
    fun h => ?_, fun h => ?_, ?_, ?_⟩
  · obtain ⟨es, j, hscan, hlex⟩ := h.scans
    exact hsign hscan hlex
  · obtain ⟨es, j, hscan, hlex⟩ := h.scans
    exact hsign hscan hlex
  · exact ⟨⟨-2, by decide⟩, _, ⟨10, fun n hn => by
      obtain ⟨k, rfl⟩ : ∃ k, n = k + 10 := ⟨n - 10, by omega⟩; rfl⟩, rfl⟩
  · exact ⟨⟨-1, by decide⟩, _, ⟨10, fun n hn => by
      obtain ⟨k, rfl⟩ : ∃ k, n = k + 10 := ⟨n - 10, by omega⟩; rfl⟩, rfl⟩

end GoodCommand.Calculator
