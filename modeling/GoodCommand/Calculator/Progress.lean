import GoodCommand.Calculator.Closing

/-! Whether the two scans make progress, turn by turn, on texts of any characters. -/

namespace GoodCommand.Calculator
open Fuel Shunting

variable {P : Platform} {s K : List Char} {i : ℕ} {em : List Entry}

/-- Every character that the scans come to belongs to a token, and no `)` comes at depth 0 after an
operator or another `)` at depth 0; a sign that `"%d"` reads is no operator. -/
def Scannable (s : List Char) : Bool := (operators (scanLen s) .free s).any (closesSafe 0 false)

theorem fine_iff_scannable : Fine [] (scanLen s) s ↔ Scannable s = true := by
  cases hops : operators (scanLen s) .free s <;> simp [Fine, Scannable, flat, hops]

namespace StringStack

/-- At every turn of its scan, `mtob` moves on or leaves the loop. -/
def ScanProgresses (P : Platform) (s : List Char) (g : Globals) : Prop :=
  ∀ st₀, mtobStart s g = .ok st₀ →
    Progresses (mtobBody P s) Scan.scandIndex (fun _ => False) s.length st₀

theorem scanProgresses_of_fine (hfine : Fine [] (scanLen s) s) (hnum : NumbersFit P s) {g : Globals}
    (hg : g.it.val = -1) : ScanProgresses P s g := by
  intro st₀ hst
  by_cases hi : InScan s 0
  · have hsize := sized_of_start hst hi
    obtain ⟨st₁, hst₁, hsafe⟩ := safe_start P hsize hfine hg
    cases hst.symm.trans hst₁
    refine .of_turns (I := Safe P s g.overflows) (fun st hst => ?_) (fun st hst => ?_) hsafe
    · by_cases hin : InScan s st.scandIndex
      · exact .inr (.inr ((hst.step hsize hin).resolve_right fun h => h.2 hnum))
      · exact .inl ⟨_, returns_of_eq (mtobBody_done hin)⟩
    · obtain ⟨em, K, -, hscan⟩ := hst
      exact hscan.bound
  · -- no character is counted, and there is no turn
    have hnone : ∀ j, ¬ InScan s j := fun j hj => hi (lt_of_le_of_lt (by omega) hj)
    refine .of_turns (I := fun st => st.scandIndex ≤ s.length)
      (fun st _ => .inl ⟨_, returns_of_eq (mtobBody_done (hnone _))⟩) (fun st h => h) ?_
    rw [mtobStart_index hst]
    exact Nat.zero_le _

end StringStack

namespace DoubleStack

/-- At every turn of its scan, `calculate` moves on or leaves the loop; arithmetic without a result
may stop it. -/
def ScanProgresses (P : Platform) (s : List Char) : Prop :=
  Progresses (calculateBody P s) Scan.scandIndex (· = .trap) s.length (calculateStart s)

theorem scanProgresses_of_fine (hfine : Fine [] (scanLen s) s) (hnum : NumbersFit P s) :
    ScanProgresses P s := by
  refine .of_turns (I := Safe P s) (fun st hst => ?_) (fun st hst => ?_) (safe_start P hfine)
  · by_cases hin : InScan s st.scandIndex
    · rcases hst.step hin with hnext | htrap | ⟨-, hbad⟩
      · exact .inr (.inr hnext)
      · exact .inr (.inl ⟨_, htrap, rfl⟩)
      · exact absurd hnum hbad
    · exact .inl ⟨_, returns_of_eq (calculateBody_done hin)⟩
  · obtain ⟨em, K, -, hscan⟩ := hst
    exact hscan.bound

/-- Where no arithmetic stops it, the scan fails to make progress only at a character that it does
not get past, or a `)` that finds operators, but no `(`. -/
theorem ScanProgresses.fine (h : ScanProgresses P.total s) : Fine [] (scanLen s) s := by
  by_contra hbad
  have hbad' : ¬ Fine [] (scanLen s - 0) (s.drop 0) := by
    rwa [Nat.sub_zero, List.drop_zero]
  obtain ⟨i, em, K, hcomes, hi, hfail⟩ := fails_of_not_fine (comes_start P s) hbad'
  obtain ⟨k, st, hk, hscan, rfl⟩ := reaches_of_comes hcomes hi
  have hturn := h.turn k st hk
  rcases hfail with hstuck | ⟨cs, htxt, hyard⟩
  · have hnext := returns_of_eq (calculateBody_stuck (P := P.total) hi hstuck)
    exact absurd (hturn.next hnext).2 (lt_irrefl _)
  · obtain ⟨hne, hloop⟩ := hscan.close_diverges hi hyard
    have hbody : Diverges (calculateBody P.total s st) := by
      rw [calculateBody_op hi htxt (by decide), calculateOp, if_neg (by simp [hne]),
        if_neg (by decide), if_pos rfl]
      exact hloop.bind.bind
    exact hturn.not_diverges hbody

theorem ScanProgresses.index_le (h : ScanProgresses P.total s) (hcomes : Comes P s i em K)
    (hi : InScan s i) {v : CInt} {n : ℕ} (hlex : lexeme P (s.drop i) = .num v n) :
    ((i + n : ℕ) : ℤ) ≤ intMax := by
  by_contra hn
  obtain ⟨k, st, hk, hscan, rfl⟩ := reaches_of_comes hcomes hi
  cases (h.turn k st hk).fault (hscan.num_overflows (P := P.total) hi hlex hn)

end DoubleStack

theorem StringStack.ScanProgresses.room {g : StringStack.Globals}
    (h : StringStack.ScanProgresses P s g) (hsize : StringStack.Sized s) (hg : g.it.val = -1)
    (hcomes : Comes P s i em K) (hi : InScan s i) {v : CInt} {n : ℕ}
    (hlex : lexeme P (s.drop i) = .num v n) :
    (text em ++ entryText (.num v)).length < (scanLen s + 1) * 2 := by
  by_contra hroom
  obtain ⟨st₀, k, st, hst, hk, hscan, rfl⟩ :=
    StringStack.reaches_of_comes hsize hcomes hi hg
  obtain ⟨f, hf⟩ := hscan.num_faults hi hlex (.inl (not_lt.mp hroom))
  exact ((h st₀ hst).turn k st hk).fault hf

/-- On every machine both scans make progress at every turn, and end, for exactly these texts. -/
theorem scans_progress_iff (s : List Char) {g : StringStack.Globals} (hg : g.it.val = -1) :
    (∀ P, StringStack.ScanProgresses P s g ∧ DoubleStack.ScanProgresses P s) ↔
      Scannable s = true ∧ ∀ P, NumbersFit P s := by
  rw [← fine_iff_scannable]
  constructor
  · intro hprog
    refine ⟨(hprog x86.total).2.fine, fun P i em K v n hcomes hi hlex => ?_⟩
    exact ⟨(hprog P.total).2.index_le hcomes hi hlex,
      fun hsize => (hprog P).1.room hsize hg hcomes hi hlex⟩
  · rintro ⟨hfine, hnum⟩ P
    exact ⟨StringStack.scanProgresses_of_fine hfine (hnum P) hg,
      DoubleStack.scanProgresses_of_fine hfine (hnum P)⟩

theorem scans_progress_iff_sample :
    (∀ P, StringStack.ScanProgresses P ['1', '+', '\t', '-', '2'] .initial ∧
      DoubleStack.ScanProgresses P ['1', '+', '\t', '-', '2']) ↔
      Scannable ['1', '+', '\t', '-', '2'] = true ∧
        ∀ P, NumbersFit P ['1', '+', '\t', '-', '2'] :=
  scans_progress_iff ['1', '+', '\t', '-', '2'] rfl

/-- A letter is read by `"%c"`, so the error branch is not taken, and nothing moves on. -/
theorem letter_stops_progress :
    ¬ StringStack.ScanProgresses x86 ['a'] .initial ∧ ¬ DoubleStack.ScanProgresses x86 ['a'] := by
  have hstuck : lexeme x86 (['a'].drop 0) = .stuck := rfl
  have hi : InScan ['a'] 0 := by decide
  refine ⟨fun h => ?_, fun h => ?_⟩
  · obtain ⟨st, hst, -, hidx⟩ := StringStack.Scanning.start (s := ['a'])
      (StringStack.sized_of_length (by decide)) (g := .initial) rfl
    rw [← hidx] at hi hstuck
    have hnext := returns_of_eq (StringStack.mtobBody_stuck hi hstuck)
    exact absurd (((h st hst).turn 0 st (.zero st)).next hnext).2 (lt_irrefl _)
  · have hi' : InScan ['a'] (DoubleStack.calculateStart ['a']).scandIndex := hi
    have hnext := returns_of_eq (DoubleStack.calculateBody_stuck hi' hstuck)
    exact absurd ((h.turn 0 _ (.zero _)).next hnext).2 (lt_irrefl _)

end GoodCommand.Calculator
