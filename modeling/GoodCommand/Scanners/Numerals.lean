import GoodCommand.Calculator.Scanner
import GoodCommand.Scanners.Defs

/-! `as.c` reads all numbers in any text: every run of digits, with the sign in front of it if there
is one. -/

namespace GoodCommand.Scanners.AsC
open Calculator Fuel

variable {P : Platform} {s junk sg ds rest : List Char} {vs ws : List CInt}

def signed (sg ds : List Char) : ℤ :=
  if sg = ['-'] then -(Nat.ofDigitChars 10 ds 0 : ℤ) else Nat.ofDigitChars 10 ds 0

def SignOf (junk sg : List Char) : Prop :=
  sg = ['+'] ∨ sg = ['-'] ∨ sg = [] ∧ ∀ c ∈ junk.getLast?, c ≠ '+' ∧ c ≠ '-'

/-- The numbers in a text. -/
inductive Numerals (P : Platform) : List Char → List CInt → Prop
  | none {s : List Char} : (∀ c ∈ s, c.isDigit = false) → Numerals P s []
  | num {junk sg ds rest : List Char} {vs : List CInt} : (∀ c ∈ junk, c.isDigit = false) →
      SignOf junk sg → ds ≠ [] → (∀ d ∈ ds, d.isDigit = true) → NoDigit rest →
      Numerals P rest vs → Numerals P (junk ++ sg ++ ds ++ rest) (P.store (signed sg ds) :: vs)

def reads (lines : List Line) : List CInt :=
  lines.filterMap fun l => match l with
    | .kvn 1 v _ => some v
    | _ => none

@[simp] theorem reads_append (ls ms : List Line) : reads (ls ++ ms) = reads ls ++ reads ms :=
  List.filterMap_append

/-! ### One conversion -/

theorem SignOf.cases (h : SignOf junk sg) : sg = [] ∨ sg = ['+'] ∨ sg = ['-'] := by
  rcases h with h | h | h
  · exact .inr (.inl h)
  · exact .inr (.inr h)
  · exact .inl h.1

theorem SignOf.tail {c : Char} (h : SignOf (c :: junk) sg) : SignOf junk sg := by
  rcases h with h | h | ⟨h, hlast⟩
  · exact .inl h
  · exact .inr (.inl h)
  · refine .inr (.inr ⟨h, fun d hd => hlast d ?_⟩)
    rw [Option.mem_def] at hd ⊢
    rw [List.getLast?_cons, hd]
    rfl

theorem noDigit_append (hjunk : ∀ c ∈ junk, c.isDigit = false) (hs : NoDigit s) :
    NoDigit (junk ++ s) := by
  cases junk with
  | nil => exact hs
  | cons c junk =>
    intro d hd
    cases hd
    exact hjunk c List.mem_cons_self

theorem dropWhile_isSpace {bl : List Char} {c : Char} (hbl : ∀ b ∈ bl, isSpace b = true)
    (hc : isSpace c = false) : (bl ++ c :: s).dropWhile isSpace = c :: s ∧
      (bl ++ c :: s).takeWhile isSpace = bl := by
  rw [List.dropWhile_append_of_pos hbl, List.takeWhile_append_of_pos hbl, List.dropWhile_cons,
    List.takeWhile_cons, hc]
  exact ⟨rfl, List.append_nil bl⟩

theorem sscanfD_numeral (hblank : ∀ c ∈ junk, isSpace c = true) (hsign : SignOf junk sg)
    (hne : ds ≠ []) (hds : ∀ d ∈ ds, d.isDigit = true) (hrest : NoDigit rest) :
    sscanfD P (junk ++ sg ++ ds ++ rest) =
      .read (P.store (signed sg ds)) (junk ++ sg ++ ds).length := by
  have hread : ∀ neg before, scanDigits neg before (ds ++ rest) =
      .read (if neg then -(Nat.ofDigitChars 10 ds 0 : ℤ) else Nat.ofDigitChars 10 ds 0)
        (before + ds.length) := fun neg before => scanDigits_eq neg before hne hds hrest
  have hscan : scanInt (junk ++ sg ++ ds ++ rest) =
      .read (signed sg ds) (junk ++ sg ++ ds).length := by
    rcases hsign.cases with rfl | rfl | rfl
    · obtain ⟨d, ds, rfl⟩ := List.exists_cons_of_ne_nil hne
      have hd := hds d List.mem_cons_self
      have hdrop := dropWhile_isSpace (s := ds ++ rest) hblank (not_isSpace_of_isDigit hd)
      rw [List.append_nil, List.append_assoc, List.cons_append, List.length_append]
      unfold scanInt
      rw [hdrop.1, hdrop.2]
      have hplus := ne_of_isDigit hd (d := '+') (by decide)
      have hminus := ne_of_isDigit hd (d := '-') (by decide)
      split
      · next h => cases h
      · next h => exact absurd (List.cons.inj h).1 hminus
      · next h => exact absurd (List.cons.inj h).1 hplus
      · next c cs _ _ h =>
        rw [← h]
        exact hread false _
    · have hdrop := dropWhile_isSpace (c := '+') (s := ds ++ rest) hblank (by decide)
      rw [List.append_assoc, List.append_assoc, List.singleton_append, List.length_append,
        List.length_append]
      unfold scanInt
      rw [hdrop.1, hdrop.2]
      exact hread false _
    · have hdrop := dropWhile_isSpace (c := '-') (s := ds ++ rest) hblank (by decide)
      rw [List.append_assoc, List.append_assoc, List.singleton_append, List.length_append,
        List.length_append]
      unfold scanInt
      rw [hdrop.1, hdrop.2]
      exact hread true _
  unfold sscanfD
  rw [hscan]

theorem scanDigits_noMatch {neg : Bool} {before : ℕ} (hs : NoDigit s) :
    scanDigits neg before s = .noMatch := by
  have hnone : s.takeWhile Char.isDigit = [] := by
    cases s with
    | nil => rfl
    | cons c cs => rw [List.takeWhile_cons, hs c rfl]; rfl
  unfold scanDigits
  rw [hnone]
  rfl

theorem sscanfD_noMatch {bl : List Char} {c : Char} (hbl : ∀ b ∈ bl, isSpace b = true)
    (hspace : isSpace c = false) (hdigit : c.isDigit = false)
    (hsign : c = '+' ∨ c = '-' → NoDigit s) : sscanfD P (bl ++ c :: s) = .noMatch := by
  have hscan : scanInt (bl ++ c :: s) = .noMatch := by
    unfold scanInt
    rw [(dropWhile_isSpace hbl hspace).1]
    split
    · next h => cases h
    · next h =>
      cases h
      exact scanDigits_noMatch (hsign (.inr rfl))
    · next h =>
      cases h
      exact scanDigits_noMatch (hsign (.inl rfl))
    · next h =>
      refine scanDigits_noMatch fun d hd => ?_
      rw [← h] at hd
      cases hd
      exact hdigit
  unfold sscanfD
  rw [hscan]

theorem sscanfD_eof (hblank : ∀ c ∈ s, isSpace c = true) : sscanfD P s = .eof := by
  have hscan : scanInt s = .eof := by
    unfold scanInt
    rw [List.dropWhile_eq_nil_iff.mpr hblank]
  unfold sscanfD
  rw [hscan]

theorem exists_first_nonblank (h : ¬∀ c ∈ s, isSpace c = true) :
    ∃ bl c cs, s = bl ++ c :: cs ∧ (∀ b ∈ bl, isSpace b = true) ∧ isSpace c = false := by
  induction s with
  | nil => exact absurd (fun _ hc => absurd hc List.not_mem_nil) h
  | cons c cs ih =>
    by_cases hc : isSpace c = true
    · obtain ⟨bl, d, ds, rfl, hbl, hd⟩ := ih fun hall => h fun b hb => by
        rcases List.mem_cons.mp hb with rfl | hb
        · exact hc
        · exact hall b hb
      refine ⟨c :: bl, d, ds, rfl, fun b hb => ?_, hd⟩
      rcases List.mem_cons.mp hb with rfl | hb
      · exact hc
      · exact hbl b hb
    · exact ⟨[], c, cs, rfl, fun _ hb => absurd hb List.not_mem_nil, by simpa using hc⟩

theorem sscanfD_junk (hjunk : ∀ c ∈ junk, c.isDigit = false)
    (hblank : ¬∀ c ∈ junk, isSpace c = true)
    (hnext : (∀ c ∈ junk.getLast?, c ≠ '+' ∧ c ≠ '-') ∨ NoDigit s) :
    sscanfD P (junk ++ s) = .noMatch := by
  obtain ⟨bl, c, cs, rfl, hbl, hc⟩ := exists_first_nonblank hblank
  rw [List.append_assoc, List.cons_append]
  refine sscanfD_noMatch hbl hc (hjunk c (by simp)) fun hsign => ?_
  have hcs : ∀ d ∈ cs, d.isDigit = false := fun d hd => hjunk d (by simp [hd])
  rcases hnext with hlast | hs
  · cases cs with
    | nil =>
      have hne := hlast c (by simp)
      rcases hsign with rfl | rfl
      · exact absurd rfl hne.1
      · exact absurd rfl hne.2
    | cons d cs =>
      intro e he
      cases he
      exact hcs d List.mem_cons_self
  · exact noDigit_append hcs hs

/-! ### Runs -/

def Comes (P : Platform) (s : List Char) (st : State) (txt : List Char) (vs : List CInt) : Prop :=
  ∃ k st', Iterates (mainBody P s) k st st' ∧ s.drop st'.p = txt ∧
    reads st'.out = reads st.out ++ vs

theorem Comes.skip {st : State} {c : Char} {txt txt' : List Char} (htxt : s.drop st.p = c :: txt)
    (hscan : sscanfD P (c :: txt) = .noMatch)
    (hrest : ∀ st', s.drop st'.p = txt → Comes P s st' txt' vs) : Comes P s st txt' vs := by
  have hbody : mainBody P s st = pure (.next { st with
      p := st.p + 1, out := st.out ++ [.kvn 0 st.v st.n, .skip c] }) := by
    unfold mainBody
    rw [htxt, hscan]
    rfl
  obtain ⟨k, st', hk, hdrop, hreads⟩ := hrest { st with
    p := st.p + 1, out := st.out ++ [.kvn 0 st.v st.n, .skip c] } (drop_succ_of_cons htxt)
  refine ⟨k + 1, st', hk.head (returns_of_eq hbody), hdrop, ?_⟩
  rw [hreads, reads_append]
  simp [reads]

theorem comes_read {st : State} {v : CInt} (htxt : s.drop st.p = ds ++ rest)
    (hscan : sscanfD P (ds ++ rest) = .read v ds.length) : Comes P s st rest [v] := by
  have hbody : mainBody P s st = pure (.next ⟨st.p + ds.length, v, ds.length,
      st.out ++ [.kvn 1 v ds.length]⟩) := by
    unfold mainBody
    rw [htxt, hscan]
  exact ⟨1, _, .head (returns_of_eq hbody) (.zero _), drop_add_of_append htxt, reads_append ..⟩

theorem comes_numeral {st : State} (hjunk : ∀ c ∈ junk, c.isDigit = false)
    (hsign : SignOf junk sg) (hne : ds ≠ []) (hds : ∀ d ∈ ds, d.isDigit = true)
    (hrest : NoDigit rest) (htxt : s.drop st.p = junk ++ sg ++ ds ++ rest) :
    Comes P s st rest [P.store (signed sg ds)] := by
  by_cases hblank : ∀ c ∈ junk, isSpace c = true
  · exact comes_read htxt (sscanfD_numeral hblank hsign hne hds hrest)
  induction junk generalizing st with
  | nil => exact absurd (fun _ hc => absurd hc List.not_mem_nil) hblank
  | cons c junk ih =>
    have hnext : (∀ b ∈ (c :: junk).getLast?, b ≠ '+' ∧ b ≠ '-') ∨ NoDigit (sg ++ ds ++ rest) := by
      rcases hsign with rfl | rfl | h
      · exact .inr fun d hd => by cases hd; rfl
      · exact .inr fun d hd => by cases hd; rfl
      · exact .inl h.2
    have hscan := sscanfD_junk (P := P) hjunk hblank hnext
    rw [List.append_assoc, List.append_assoc, List.cons_append] at htxt
    rw [List.append_assoc, List.cons_append] at hscan
    refine Comes.skip htxt hscan fun st' hst' => ?_
    rw [← List.append_assoc, ← List.append_assoc] at hst'
    have hjunk' : ∀ b ∈ junk, b.isDigit = false := fun b hb => hjunk b (List.mem_cons_of_mem c hb)
    by_cases hblank' : ∀ b ∈ junk, isSpace b = true
    · exact comes_read hst' (sscanfD_numeral hblank' hsign.tail hne hds hrest)
    · exact ih hjunk' hsign.tail hst' hblank'

theorem comes_none {txt : List Char} (hnone : ∀ c ∈ txt, c.isDigit = false) :
    ∃ bl, (∀ c ∈ bl, isSpace c = true) ∧ ∀ st, s.drop st.p = txt → Comes P s st bl [] := by
  by_cases hblank : ∀ c ∈ txt, isSpace c = true
  · exact ⟨txt, hblank, fun st htxt => ⟨0, st, .zero st, htxt, (List.append_nil _).symm⟩⟩
  induction txt with
  | nil => exact absurd (fun _ hc => absurd hc List.not_mem_nil) hblank
  | cons c txt ih =>
    have hscan := sscanfD_junk (P := P) (s := []) hnone hblank (.inr fun _ h => by cases h)
    rw [List.append_nil] at hscan
    have hnone' : ∀ b ∈ txt, b.isDigit = false := fun b hb => hnone b (List.mem_cons_of_mem c hb)
    by_cases hblank' : ∀ b ∈ txt, isSpace b = true
    · exact ⟨txt, hblank', fun st htxt => Comes.skip htxt hscan fun st' hst' =>
        ⟨0, st', .zero st', hst', (List.append_nil _).symm⟩⟩
    · obtain ⟨bl, hbl, hcomes⟩ := ih hnone' hblank'
      exact ⟨bl, hbl, fun st htxt => Comes.skip htxt hscan hcomes⟩

theorem Comes.returns {st : State} {txt : List Char} (ws : List CInt) (h : Comes P s st txt vs)
    (hrest : ∀ st', s.drop st'.p = txt →
      ∃ lines, Returns (loop (mainBody P s) st') lines ∧ reads lines = reads st'.out ++ ws) :
    ∃ lines, Returns (loop (mainBody P s) st) lines ∧ reads lines = reads st.out ++ (vs ++ ws) := by
  obtain ⟨k, st', hk, hdrop, hreads⟩ := h
  obtain ⟨lines, hret, hlines⟩ := hrest st' hdrop
  refine ⟨lines, hk.returns_loop hret, ?_⟩
  rw [hlines, hreads, List.append_assoc]

theorem Numerals.returns {txt : List Char} (h : Numerals P txt vs) (st : State)
    (htxt : s.drop st.p = txt) :
    ∃ lines, Returns (loop (mainBody P s) st) lines ∧ reads lines = reads st.out ++ vs := by
  induction h generalizing st with
  | none hnone =>
    obtain ⟨bl, hbl, hcomes⟩ := comes_none (P := P) (s := s) hnone
    refine (hcomes st htxt).returns [] fun st' hst' => ?_
    have hbody : mainBody P s st' = pure (.exit (st'.out ++ [.kvn (-1) st'.v st'.n, .theEnd])) := by
      unfold mainBody
      rw [hst', sscanfD_eof hbl]
    exact ⟨_, returns_loop_exit (returns_of_eq hbody), reads_append ..⟩
  | num hjunk hsign hne hds hrest _ ih =>
    exact (comes_numeral hjunk hsign hne hds hrest htxt).returns _ fun st' hst' => ih st' hst'

theorem exists_first_numeral (h : ¬∀ c ∈ s, c.isDigit = false) :
    ∃ junk sg ds rest, s = junk ++ sg ++ ds ++ rest ∧ (∀ c ∈ junk, c.isDigit = false) ∧
      SignOf junk sg ∧ ds ≠ [] ∧ (∀ d ∈ ds, d.isDigit = true) ∧ NoDigit rest := by
  have hsplit := List.takeWhile_append_dropWhile (p := fun c : Char => !c.isDigit) (l := s)
  have hbefore : ∀ c ∈ s.takeWhile fun c => !c.isDigit, c.isDigit = false := fun c hc => by
    simpa using List.mem_takeWhile_imp hc
  have hfrom : s.dropWhile (fun c => !c.isDigit) ≠ [] := fun hnil =>
    h fun c hc => by simpa using List.dropWhile_eq_nil_iff.mp hnil c hc
  obtain ⟨d, tl, hd⟩ := List.exists_cons_of_ne_nil hfrom
  have hdigit : d.isDigit = true := by
    have := List.head?_dropWhile_not (fun c : Char => !c.isDigit) s
    rw [hd] at this
    simpa using this
  have hrest : NoDigit (tl.dropWhile Char.isDigit) := fun c hc => by
    have := List.head?_dropWhile_not Char.isDigit tl
    rw [Option.mem_def] at hc
    rw [hc] at this
    simpa using this
  have hds : ∀ c ∈ d :: tl.takeWhile Char.isDigit, c.isDigit = true := fun c hc => by
    rcases List.mem_cons.mp hc with rfl | hc
    · exact hdigit
    · exact List.mem_takeWhile_imp hc
  rw [hd, ← List.takeWhile_append_dropWhile (p := Char.isDigit) (l := tl)] at hsplit
  generalize hpre : s.takeWhile (fun c => !c.isDigit) = pre at hsplit hbefore
  by_cases hsign : ∃ c ∈ pre.getLast?, c = '+' ∨ c = '-'
  · obtain ⟨c, hc, hcs⟩ := hsign
    obtain ⟨junk, rfl⟩ := List.getLast?_eq_some_iff.mp hc
    refine ⟨junk, [c], d :: tl.takeWhile Char.isDigit, _, ?_, fun b hb => hbefore b (by simp [hb]),
      ?_, List.cons_ne_nil _ _, hds, hrest⟩
    · rw [← hsplit]
      simp
    · rcases hcs with rfl | rfl
      · exact .inl rfl
      · exact .inr (.inl rfl)
  · push Not at hsign
    refine ⟨pre, [], d :: tl.takeWhile Char.isDigit, _, ?_, hbefore, .inr (.inr ⟨rfl, hsign⟩),
      List.cons_ne_nil _ _, hds, hrest⟩
    rw [← hsplit]
    simp

theorem exists_numerals (P : Platform) (s : List Char) : ∃ vs, Numerals P s vs := by
  induction hn : s.length using Nat.strong_induction_on generalizing s with
  | _ n ih =>
    by_cases hnone : ∀ c ∈ s, c.isDigit = false
    · exact ⟨[], .none hnone⟩
    · obtain ⟨junk, sg, ds, rest, rfl, hjunk, hsign, hne, hds, hrest⟩ := exists_first_numeral hnone
      have hpos := List.length_pos_of_ne_nil hne
      simp only [List.length_append] at hn
      obtain ⟨vs, hvs⟩ := ih rest.length (by omega) rest rfl
      exact ⟨_, .num hjunk hsign hne hds hrest hvs⟩

/-- On any text the program ends, and it has read the numbers of the text, all of them in order. -/
theorem main_reads_numerals (P : Platform) (s : List Char) :
    ∃ lines, Returns (main P s) lines ∧ ∀ vs, Numerals P s vs ↔ reads lines = vs := by
  have hruns : ∀ vs, Numerals P s vs → ∃ lines, Returns (main P s) lines ∧ reads lines = vs :=
    fun vs hvs => hvs.returns ⟨0, CInt.zero, 0, []⟩ rfl
  obtain ⟨vs, hvs⟩ := exists_numerals P s
  obtain ⟨lines, hret, hlines⟩ := hruns vs hvs
  refine ⟨lines, hret, fun ws => ⟨fun hws => ?_, fun hws => ?_⟩⟩
  · obtain ⟨lines', hret', hlines'⟩ := hruns ws hws
    rw [hret.unique hret', hlines']
  · rwa [← hws, hlines]

/-- The run that the comment at the end of `as.c` shows. -/
example : main x86 ['1', '2', '3', ' ', 'a', 'b', ' ', '4'] 6 = .ok
    [.kvn 1 ⟨123, by decide⟩ 3, .kvn 0 ⟨123, by decide⟩ 3, .skip ' ', .kvn 0 ⟨123, by decide⟩ 3,
      .skip 'a', .kvn 0 ⟨123, by decide⟩ 3, .skip 'b', .kvn 1 ⟨4, by decide⟩ 2,
      .kvn (-1) ⟨4, by decide⟩ 2, .theEnd] := rfl

/-! ### Numbers that have been printed -/

/-- Each number behind a text of its own, and a text behind the last one. -/
def spread (tail : List Char) : List (List Char × CInt) → List Char
  | [] => tail
  | (junk, v) :: xs => junk ++ printD v ++ spread tail xs

/-- The texts have no digits, and a number is not printed right behind another one, nor behind what
would be taken for its sign. -/
def Apart (tail : List Char) : List (List Char × CInt) → Prop
  | [] => ∀ c ∈ tail, c.isDigit = false
  | (junk, v) :: xs => (∀ c ∈ junk, c.isDigit = false) ∧
      (0 ≤ v.val → ∀ c ∈ junk.getLast?, c ≠ '+' ∧ c ≠ '-') ∧ NoDigit (spread tail xs) ∧
        Apart tail xs

theorem numerals_spread {tail : List Char} {xs : List (List Char × CInt)} (h : Apart tail xs) :
    Numerals P (spread tail xs) (xs.map Prod.snd) := by
  induction xs with
  | nil => exact .none h
  | cons x xs ih =>
    obtain ⟨junk, v⟩ := x
    obtain ⟨hjunk, hlast, hrest, hxs⟩ := h
    have hdigits := toDigits_isDigit v.val.natAbs
    have hvalue := Nat.ofDigitChars_ten_toDigits (n := v.val.natAbs)
    by_cases hneg : v.val < 0
    · have hnum := Numerals.num (P := P) hjunk (.inr (.inl rfl)) Nat.toDigits_ne_nil hdigits hrest
        (ih hxs)
      have hstore : P.store (signed ['-'] (Nat.toDigits 10 v.val.natAbs)) = v := by
        rw [signed, if_pos rfl, hvalue, Int.ofNat_natAbs_of_nonpos hneg.le, neg_neg, P.store_val]
      rw [hstore] at hnum
      unfold spread printD
      rw [if_pos hneg]
      simpa using hnum
    · have hnum := Numerals.num (P := P) hjunk (.inr (.inr ⟨rfl, hlast (not_lt.mp hneg)⟩))
        Nat.toDigits_ne_nil hdigits hrest (ih hxs)
      have hstore : P.store (signed [] (Nat.toDigits 10 v.val.natAbs)) = v := by
        rw [signed, if_neg (by decide), hvalue, Int.natAbs_of_nonneg (not_lt.mp hneg), P.store_val]
      rw [hstore] at hnum
      unfold spread printD
      rw [if_neg hneg]
      simpa using hnum

/-- Whatever numbers are printed, and whatever is printed between them, the numbers are read back.
-/
theorem main_reads_back {tail : List Char} {xs : List (List Char × CInt)} (h : Apart tail xs) :
    ∃ lines, Returns (main P (spread tail xs)) lines ∧ reads lines = xs.map Prod.snd := by
  obtain ⟨lines, hret, hlines⟩ := main_reads_numerals P (spread tail xs)
  exact ⟨lines, hret, (hlines _).mp (numerals_spread h)⟩

theorem main_reads_back_two : ∃ lines,
    Returns (main x86 ['1', '2', '3', ' ', 'a', 'b', ' ', '-', '4']) lines ∧
      reads lines = [⟨123, by decide⟩, ⟨-4, by decide⟩] := by
  have hapart : Apart [] [([], ⟨123, by decide⟩), ([' ', 'a', 'b', ' '], ⟨-4, by decide⟩)] := by
    refine ⟨by simp, by simp, fun c hc => ?_, by simp, by simp, fun c hc => ?_, by simp [Apart]⟩
    · cases hc
      rfl
    · cases hc
  exact main_reads_back (P := x86) hapart

end GoodCommand.Scanners.AsC
