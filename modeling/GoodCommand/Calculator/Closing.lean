import GoodCommand.Calculator.Buffers
import GoodCommand.Calculator.Operators

/-! The turns of the two scans on any text, and the loop that each runs on a `)`. Undefined
arithmetic may stop `calculate` on one machine and not on another; what is said to end is to end on
all of them. -/

namespace GoodCommand.Calculator
open Fuel Shunting

variable {P : Platform} {s K : List Char} {i : ℕ} {em : List Entry}

theorem drop_of_getElem? {c : Char} (h : s[i]? = some c) : ∃ cs, s.drop i = c :: cs := by
  obtain ⟨hi, rfl⟩ := List.getElem?_eq_some_iff.mp h
  exact ⟨_, List.drop_eq_getElem_cons hi⟩

theorem getElem?_of_drop {c : Char} {cs : List Char} (h : s.drop i = c :: cs) :
    s[i]? = some c := by
  have hhead := congrArg List.head? h
  simpa using hhead

/-- Every number that the scans come to ends at an index that is an `int`, and where `mtob` has its
buffers, what it prints ends inside. -/
def NumbersFit (P : Platform) (s : List Char) : Prop :=
  ∀ i em K v n, Comes P s i em K → InScan s i → lexeme P (s.drop i) = .num v n →
    ((i + n : ℕ) : ℤ) ≤ intMax ∧
      (StringStack.Sized s → (text em ++ entryText (.num v)).length < (scanLen s + 1) * 2)

theorem numbersFit_of_length (P : Platform) (hlen : (s.length : ℤ) ≤ intMax) : NumbersFit P s := by
  rintro i em K v n ⟨es, htakes, hyard⟩ hi hlex
  obtain ⟨-, hle⟩ := num_le_length hi.lt_length hlex
  refine ⟨by omega, fun _ => ?_⟩
  obtain ⟨-, -, hprint⟩ := sscanfD_bounds (lexeme_num hlex)
  have hcost := StringStack.cost_of_takes htakes hyard
  rw [scanLen_of_le hlen]
  simp only [entryText, List.length_append, List.length_singleton, List.length_nil] at hcost ⊢
  omega

namespace StringStack

variable {ov : ℕ} {st : Scan} {g : Globals}

def Safe (P : Platform) (s : List Char) (ov : ℕ) (st : Scan) : Prop :=
  ∃ em K, OnTrack P s st.scandIndex em K ∧ Scanning s ov st K (text em)

theorem safe_start (P : Platform) (hsize : Sized s) (h : Fine [] (scanLen s) s)
    (hg : g.it.val = -1) : ∃ st, mtobStart s g = .ok st ∧ Safe P s g.overflows st := by
  obtain ⟨st, hst, hscan, hidx⟩ := Scanning.start hsize hg
  exact ⟨st, hst, [], [], hidx ▸ onTrack_start h, hscan⟩

theorem Safe.step (hsize : Sized s) (h : Safe P s ov st) (hi : InScan s st.scandIndex) :
    (∃ st', Returns (mtobBody P s st) (.next st') ∧ Safe P s ov st' ∧
      st.scandIndex < st'.scandIndex) ∨
    (∃ f, Faults (mtobBody P s st) f) ∧ ¬ NumbersFit P s := by
  obtain ⟨em, K, htrack, hs⟩ := h
  rcases htrack.next hi with
    ⟨c, cs, ops, K', htxt, hc, hop, hnext⟩ | ⟨cs, htxt, hnext⟩ | ⟨v, n, hlex, hnext⟩
  · obtain ⟨st', hret, hs', hidx⟩ := hs.op hi htxt hc hop
    rw [← text_append] at hs'
    exact .inl ⟨st', hret, ⟨_, K', hidx ▸ hnext, hs'⟩, by omega⟩
  · obtain ⟨st', hret, hs', hidx⟩ := hs.blank (P := P) hi htxt
    exact .inl ⟨st', hret, ⟨em, K, hidx ▸ hnext, hs'⟩, by omega⟩
  · by_cases hfit : ((st.scandIndex + n : ℕ) : ℤ) ≤ intMax ∧
        (text em ++ entryText (.num v)).length < (scanLen s + 1) * 2
    · obtain ⟨st', hret, hs', hidx⟩ := hs.num hi hlex hfit.1 hfit.2
      obtain ⟨hpos, -⟩ := num_le_length hi.lt_length hlex
      have htext : text em ++ entryText (.num v) = text (em ++ [.num v]) := by simp
      rw [htext] at hs'
      exact .inl ⟨st', hret, ⟨_, K, hidx ▸ hnext hfit.1, hs'⟩, by omega⟩
    · refine .inr ⟨hs.num_faults hi hlex ?_, fun hnum => hfit ?_⟩
      · rw [not_and_or] at hfit
        exact hfit.symm.imp_left not_lt.mp
      · obtain ⟨hindex, hroom⟩ := hnum _ em K v n htrack.comes hi hlex
        exact ⟨hindex, hroom hsize⟩

/-- The loop that `mtob` runs on a `)` ends without reading `stack[-1]`, whenever it is run. -/
def ClosesEnd (P : Platform) (s : List Char) (g : Globals) : Prop :=
  ∀ st₀ k st, mtobStart s g = .ok st₀ → Iterates (mtobBody P s) k st₀ st →
    InScan s st.scandIndex → s[st.scandIndex]? = some ')' → isEmpty st.g = false →
      ∃ st', Returns (loop closeBody { st with scandIndex := st.scandIndex + 1 }) st'

theorem sized_of_start {st₀ : Scan} (hst : mtobStart s g = .ok st₀) (hi : InScan s i) :
    Sized s := by
  have hpos : (i : ℤ) < (strLen s).val := hi
  refine ⟨by omega, ?_⟩
  by_contra hbig
  rw [mtobStart_overflows (not_lt.mp hbig)] at hst
  cases hst

theorem closesEnd_of_fine (P : Platform) (h : Fine [] (scanLen s) s) (hg : g.it.val = -1) :
    ClosesEnd P s g := by
  intro st₀ k st hst hk hi hclose hne
  have hsize := sized_of_start hst hi
  obtain ⟨st₁, hst₁, hsafe₁⟩ := safe_start P hsize h hg
  cases hst.symm.trans hst₁
  obtain ⟨em, K, htrack, hs⟩ := hk.keeps (I := Safe P s g.overflows) (fun st st' hsafe hret => by
    obtain ⟨hin, -⟩ := mtobBody_next hret
    rcases hsafe.step hsize hin with ⟨st₂, hret₂, hsafe₂, -⟩ | ⟨⟨f, hf⟩, -⟩
    · cases hret.unique hret₂
      exact hsafe₂
    · exact absurd hf hret.not_faults) hsafe₁
  obtain ⟨cs, htxt⟩ := drop_of_getElem? hclose
  have hfine := htrack.fine
  rw [htxt] at hfine
  have hnil : K ≠ [] := fun h0 => by rw [hs.rep.isEmpty_iff.mpr h0] at hne; cases hne
  have hmem := hfine.mem_left (Nat.sub_pos_of_lt (inScan_iff.mp hi)) hnil
  have hroom := hs.room hi
  obtain ⟨st', hret, -⟩ := (hs.rep.setIndex (st.scandIndex + 1)).close (by omega) hmem
  exact ⟨st', hret⟩

theorem reaches_of_comes (hsize : Sized s) (h : Comes P s i em K) (hi : InScan s i)
    (hg : g.it.val = -1) :
    ∃ st₀ k st, mtobStart s g = .ok st₀ ∧ Iterates (mtobBody P s) k st₀ st ∧
      Scanning s g.overflows st K (text em) ∧ st.scandIndex = i := by
  obtain ⟨es, htakes, hyard⟩ := h
  obtain ⟨st₀, hst, hstart, hidx⟩ := Scanning.start hsize hg
  obtain ⟨k, st, hk, hs, hi'⟩ := hstart.reaches htakes (inScan_iff.mp hi).le hidx hyard
  exact ⟨st₀, k, st, hst, hk, by simpa using hs, hi'⟩

end StringStack

namespace DoubleStack

variable {st : Scan}

def Safe (P : Platform) (s : List Char) (st : Scan) : Prop :=
  ∃ em K, OnTrack P s st.scandIndex em K ∧ Scanning s st K

theorem safe_start (P : Platform) (h : Fine [] (scanLen s) s) : Safe P s (calculateStart s) :=
  ⟨[], [], onTrack_start h, Scanning.start s⟩

theorem Scanning.size_pos (h : Scanning s st K) (hi : InScan s st.scandIndex) :
    0 < st.pair.npst.maxSize.val := by
  have hlt : (st.scandIndex : ℤ) < (strLen s).val := hi
  rw [h.size]
  omega

theorem Scanning.num_overflows (h : Scanning s st K) (hi : InScan s st.scandIndex) {v : CInt}
    {n : ℕ} (hlex : lexeme P (s.drop st.scandIndex) = .num v n)
    (hn : ¬ ((st.scandIndex + n : ℕ) : ℤ) ≤ intMax) :
    Faults (calculateBody P s st) (.scanIndex (st.scandIndex + n)) := by
  obtain ⟨npst, hpush⟩ := h.push_ok hi v
  rw [calculateBody_num hi hlex]
  exact (returns_lift hpush).bind_faults (Faults.bind (faults_lift (advance_error hn)))

theorem Safe.step (h : Safe P s st) (hi : InScan s st.scandIndex) :
    (∃ st', Returns (calculateBody P s st) (.next st') ∧ Safe P s st' ∧
      st.scandIndex < st'.scandIndex) ∨
    Faults (calculateBody P s st) .trap ∨
    (∃ f, Faults (calculateBody P s st) f) ∧ ¬ NumbersFit P s := by
  obtain ⟨em, K, htrack, hs⟩ := h
  rcases htrack.next hi with
    ⟨c, cs, ops, K', htxt, hc, hop, hnext⟩ | ⟨cs, htxt, hnext⟩ | ⟨v, n, hlex, hnext⟩
  · have hbody := hs.op hi htxt hc hop
    cases hfold : ops.foldlM (applyOp P) st.pair.npst with
    | error e =>
      obtain rfl := foldlM_applyOp_error (hs.size_pos hi) hfold
      exact .inr (.inl (hbody.error hfold))
    | ok npst =>
      obtain ⟨_, hret, st', rfl, -, hs', hidx⟩ := hbody.ok hfold
      exact .inl ⟨st', hret, ⟨_, K', hidx ▸ hnext, hs' (foldlM_applyOp_maxSize hfold)⟩, by omega⟩
  · exact .inl ⟨_, returns_of_eq (calculateBody_blank hi htxt), ⟨em, K, hnext, hs.blank hi⟩,
      Nat.lt_succ_self _⟩
  · by_cases hn : ((st.scandIndex + n : ℕ) : ℤ) ≤ intMax
    · obtain ⟨npst, hpush⟩ := hs.push_ok hi v
      obtain ⟨hpos, -⟩ := num_le_length hi.lt_length hlex
      refine .inl ⟨⟨st.scandIndex + n, { st.pair with npst := npst }⟩, ?_,
        ⟨_, K, hnext hn, hs.num hi hlex hpush⟩, Nat.lt_add_of_pos_right hpos⟩
      rw [calculateBody_num hi hlex]
      exact (returns_lift hpush).bind ((returns_lift (advance_ok hn)).bind (returns_pure _))
    · exact .inr (.inr ⟨⟨_, hs.num_overflows hi hlex hn⟩,
        fun hnum => hn (hnum _ em K v n htrack.comes hi hlex).1⟩)

/-- The loop that `calculate` runs on a `)` ends after finitely many calls of `pop_and_cal`,
whenever it is run; arithmetic without a result may stop it. -/
def ClosesEnd (P : Platform) (s : List Char) : Prop :=
  ∀ k st, Iterates (calculateBody P s) k (calculateStart s) st → InScan s st.scandIndex →
    s[st.scandIndex]? = some ')' → stackIsEmpty st.pair.opst = false →
    (∃ pair, Returns (loop (closeBody P) st.pair) pair) ∨ Faults (loop (closeBody P) st.pair) .trap

theorem closesEnd_of_fine (P : Platform) (h : Fine [] (scanLen s) s) : ClosesEnd P s := by
  intro k st hk hi hclose hne
  obtain ⟨em, K, htrack, hs⟩ := hk.keeps (I := Safe P s) (fun st st' hsafe hret => by
    obtain ⟨hin, -⟩ := calculateBody_next hret
    rcases hsafe.step hin with ⟨st₂, hret₂, hsafe₂, -⟩ | htrap | ⟨⟨f, hf⟩, -⟩
    · cases hret.unique hret₂
      exact hsafe₂
    · exact absurd htrap hret.not_faults
    · exact absurd hf hret.not_faults) (safe_start P h)
  obtain ⟨cs, htxt⟩ := drop_of_getElem? hclose
  have hfine := htrack.fine
  rw [htxt] at hfine
  have hnil : K ≠ [] := fun h0 => by rw [hs.holds.isEmpty_iff.mpr h0] at hne; cases hne
  have hmem := hfine.mem_left (Nat.sub_pos_of_lt (inScan_iff.mp hi)) hnil
  have hloop := close_follows (P := P) hs.holds hmem
  cases hfold : (K.takeWhile (· ≠ '(')).foldlM (applyOp P) st.pair.npst with
  | ok npst =>
    obtain ⟨pair, hret, -⟩ := hloop.ok hfold
    exact .inl ⟨pair, hret⟩
  | error e =>
    obtain rfl := foldlM_applyOp_error (hs.size_pos hi) hfold
    exact .inr (hloop.error hfold)

/-! ### The loop that does not end -/

/-- Without a `(` the loop takes every operator off; with none left `stack_top` reads as 0, which is
not `(` either, and `pop_and_cal` goes on. -/
theorem close_diverges {st : Pair} (hpos : 0 < st.npst.maxSize.val)
    (h : ∀ c ∈ st.opst.items, c ≠ '(' ∧ ∀ a1 a2, ∃ r, doOneCal P c a1 a2 = .ok r) :
    Diverges (loop (closeBody P) st) := by
  refine diverges_loop (fun st : Pair => 0 < st.npst.maxSize.val ∧
    ∀ c ∈ st.opst.items, c ≠ '(' ∧ ∀ a1 a2, ∃ r, doOneCal P c a1 a2 = .ok r)
    (fun st h => ?_) ⟨hpos, h⟩
  obtain ⟨hpos, hops⟩ := h
  have htop : stackTop st.opst ≠ '(' ∧
      ∀ a1 a2, ∃ r, doOneCal P (stackPop st.opst).1 a1 a2 = .ok r := by
    cases hitems : st.opst.items with
    | nil =>
      rw [stackTop, hitems, (stackPop_nil hitems).1]
      exact ⟨by decide, fun a1 a2 => ⟨CInt.zero, rfl⟩⟩
    | cons c items =>
      rw [stackTop, hitems, (stackPop_cons hitems).1]
      exact hops c (by simp [hitems])
  have hsize : (stackPop (stackPop st.npst).2).2.maxSize = st.npst.maxSize := by
    rw [stackPop_maxSize, stackPop_maxSize]
  obtain ⟨r, hr⟩ := htop.2 (stackPop st.npst).1 (stackPop (stackPop st.npst).2).1
  obtain ⟨npst, hpush⟩ := stackPush_ok (hsize ▸ hpos) r
  have hcal : popAndCal P st = .ok ⟨(stackPop st.opst).2, npst⟩ := by
    simp only [popAndCal, hr, hpush, bind, Except.bind, pure, Except.pure]
  refine ⟨⟨(stackPop st.opst).2, npst⟩, ⟨?_, fun c hc => hops c ?_⟩, fun n => ?_⟩
  · rw [(stackPush_keeps hpush).1, hsize]
    exact hpos
  · rw [(stackPop_items st.opst).1] at hc
    exact List.mem_of_mem_tail hc
  · rw [closeBody, if_pos htop.1, hcal]
    rfl

theorem doOneCal_total (P : Platform) (c : Char) (a1 a2 : CInt) :
    ∃ r, doOneCal P.total c a1 a2 = .ok r := by
  unfold doOneCal
  split
  · exact P.result_total _ _ _ _
  · exact P.result_total _ _ _ _
  · exact P.result_total _ _ _ _
  · unfold Platform.div
    split
    · exact ⟨CInt.zero, rfl⟩
    · exact P.result_total _ _ _ _
  · exact ⟨CInt.zero, rfl⟩

theorem numStep_total (P : Platform) {npst : Stack CInt} (hpos : 0 < npst.maxSize.val)
    (e : Entry) : ∃ npst', numStep P.total npst e = .ok npst' := by
  cases e with
  | num v => exact stackPush_ok hpos v
  | op c =>
    have hsize : (stackPop (stackPop npst).2).2.maxSize = npst.maxSize := by
      rw [stackPop_maxSize, stackPop_maxSize]
    obtain ⟨r, hr⟩ := doOneCal_total P c (stackPop npst).1 (stackPop (stackPop npst).2).1
    obtain ⟨npst', hpush⟩ := stackPush_ok (hsize ▸ hpos) r
    refine ⟨npst', ?_⟩
    simp only [numStep, applyOp, hr, hpush, bind, Except.bind]

theorem foldlM_numStep_total (P : Platform) {npst : Stack CInt} (hpos : 0 < npst.maxSize.val)
    (items : List Entry) : ∃ npst', items.foldlM (numStep P.total) npst = .ok npst' := by
  induction items generalizing npst with
  | nil => exact ⟨npst, rfl⟩
  | cons e items ih =>
    obtain ⟨npst₁, hstep⟩ := numStep_total P hpos e
    obtain ⟨npst', hrest⟩ := ih (numStep_maxSize hstep ▸ hpos)
    exact ⟨npst', by rw [List.foldlM_cons, hstep]; exact hrest⟩

theorem reaches_of_comes (h : Comes P s i em K) (hi : InScan s i) :
    ∃ k st, Iterates (calculateBody P.total s) k (calculateStart s) st ∧ Scanning s st K ∧
      st.scandIndex = i := by
  obtain ⟨es, htakes, hyard⟩ := h
  have hyard' : yardAll P.total es [] = some (em, K) := by
    rw [Platform.total, yardAll_withUndef]
    exact hyard
  have hpos : 0 < (calculateStart s).pair.npst.maxSize.val := by
    have hlt : (i : ℤ) < (strLen s).val := hi
    show 0 < (strLen s).val
    omega
  obtain ⟨npst, hfold⟩ := foldlM_numStep_total P hpos em
  obtain ⟨k, st, hk, -, hs, hi'⟩ :=
    ((Scanning.start s).reaches (htakes.withUndef _) rfl hyard').2 npst hfold
  exact ⟨k, st, hk, hs, hi'⟩

theorem Scanning.close_diverges (h : Scanning s st K) (hi : InScan s st.scandIndex)
    (hyard : yardOp P ')' K = none) :
    stackIsEmpty st.pair.opst = false ∧ Diverges (loop (closeBody P.total) st.pair) := by
  obtain ⟨hnil, -, hmem⟩ := yardOp_eq_none_iff.mp hyard
  refine ⟨by simpa using mt h.holds.isEmpty_iff.mp hnil,
    DoubleStack.close_diverges (h.size_pos hi) fun c hc => ⟨?_, doOneCal_total P c⟩⟩
  rintro rfl
  exact hmem (h.holds.items_eq ▸ hc)

end DoubleStack

/-! ### The loops run on a `)` -/

theorem operators_of_inAlphabet (hs : InAlphabet s) (m : ℕ) (run : Bool) :
    operators m .free s = some ((seenFrom m run s).filter isLegalOp) := by
  induction s generalizing m run with
  | nil => cases m <;> rfl
  | cons c s ih =>
    have hrest := @ih (fun d hd => hs d (List.mem_cons_of_mem _ hd))
    cases m with
    | zero =>
      rw [operators_zero, seenFrom]
      split_ifs with hrun
      · have hd := (hrun.resolve_left (lt_irrefl 0)).2
        rw [List.filter_cons_of_neg (by simp [not_isLegalOp_of_isDigit hd]), ← hrest,
          operators_zero]
      · rfl
    | succ m =>
      rw [seenFrom, if_pos (Or.inl (Nat.succ_pos m)), Nat.succ_sub_one]
      rcases hs c (by simp) with hd | hop | rfl
      · rw [operators_digit hd, Nat.succ_sub_one, hrest m c.isDigit,
          List.filter_cons_of_neg (by simp [not_isLegalOp_of_isDigit hd])]
      · rw [operators_op (Nat.succ_pos m) hop, Nat.succ_sub_one, hrest m c.isDigit,
          List.filter_cons_of_pos hop, Option.map_some]
      · rw [operators_space, Nat.succ_sub_one, hrest m (Char.isDigit ' '),
          List.filter_cons_of_neg (by decide)]

theorem fine_iff_closesSafe (hs : InAlphabet s) :
    Fine [] (scanLen s) s ↔ closesSafe 0 false (seen s) = true := by
  rw [Fine, operators_of_inAlphabet hs (scanLen s) false]
  simp only [Option.some.injEq, existsAndEq, true_and]
  exact (congrArg (· = true) (closesSafe_filter 0 false (seen s))).to_iff

theorem lexeme_ne_stuck (hs : InAlphabet s) (hi : i < s.length) :
    lexeme P (s.drop i) ≠ .stuck := by
  obtain ⟨c, cs, htxt⟩ := List.exists_cons_of_ne_nil (drop_ne_nil hi)
  have hmem : c ∈ s := List.mem_of_mem_drop (htxt ▸ List.mem_cons_self ..)
  rw [htxt]
  rcases hs c hmem with hd | hop | rfl
  · obtain ⟨ds, rest, hsplit, hne, hds, hrest⟩ := exists_digits hd cs
    rw [hsplit, lexeme_digits hne hds hrest]
    simp
  · rw [lexeme_op cs hop]
    simp
  · rw [lexeme_blank]
    simp

theorem fails_of_not_closesSafe (P : Platform) (hs : InAlphabet s)
    (h : ¬ closesSafe 0 false (seen s) = true) :
    ∃ i em K cs, Comes P s i em K ∧ InScan s i ∧ s.drop i = ')' :: cs ∧
      yardOp P ')' K = none := by
  have hbad : ¬ Fine [] (scanLen s - 0) (s.drop 0) := by
    rw [Nat.sub_zero, List.drop_zero]
    exact mt (fine_iff_closesSafe hs).mp h
  obtain ⟨i, em, K, hcomes, hi, hstuck | ⟨cs, htxt, hyard⟩⟩ :=
    fails_of_not_fine (comes_start P s) hbad
  · exact absurd hstuck (lexeme_ne_stuck hs hi.lt_length)
  · exact ⟨i, em, K, cs, hcomes, hi, htxt, hyard⟩

theorem StringStack.ClosesEnd.closesSafe (hs : InAlphabet s) (hsize : StringStack.Sized s)
    {g : StringStack.Globals} (hg : g.it.val = -1) (h : StringStack.ClosesEnd P s g) :
    closesSafe 0 false (seen s) = true := by
  by_contra hbad
  obtain ⟨i, em, K, cs, hcomes, hi, htxt, hyard⟩ := fails_of_not_closesSafe P hs hbad
  obtain ⟨st₀, k, st, hst, hk, hscan, rfl⟩ := StringStack.reaches_of_comes hsize hcomes hi hg
  obtain ⟨hnil, -, hmem⟩ := yardOp_eq_none_iff.mp hyard
  have hne : StringStack.isEmpty st.g = false := by
    simpa using mt hscan.rep.isEmpty_iff.mp hnil
  obtain ⟨st', hret⟩ := h st₀ k st hst hk hi (getElem?_of_drop htxt) hne
  have hroom := hscan.room hi
  exact hret.not_faults ((hscan.rep.setIndex _).close_faults (by omega) hmem)

/-- On every machine both loops end, for the texts whose `)` find no operator without a `(`. -/
theorem paren_loops_end_iff (hs : InAlphabet s) {g : StringStack.Globals} (hg : g.it.val = -1) :
    (∀ P, StringStack.ClosesEnd P s g ∧ DoubleStack.ClosesEnd P s) ↔
      closesSafe 0 false (seen s) = true := by
  constructor
  · intro hends
    by_contra hbad
    obtain ⟨i, em, K, cs, hcomes, hi, htxt, hyard⟩ := fails_of_not_closesSafe x86 hs hbad
    obtain ⟨k, st, hk, hscan, rfl⟩ := DoubleStack.reaches_of_comes hcomes hi
    obtain ⟨hne, hloop⟩ := hscan.close_diverges hi hyard
    rcases (hends x86.total).2 k st hk hi (getElem?_of_drop htxt) hne with ⟨pair, hret⟩ | hfault
    · exact hret.not_diverges hloop
    · exact hfault.not_diverges hloop
  · intro hsafe P
    have hfine := (fine_iff_closesSafe hs).mpr hsafe
    exact ⟨StringStack.closesEnd_of_fine P hfine hg, DoubleStack.closesEnd_of_fine P hfine⟩

theorem paren_loops_end_iff_sample :
    (∀ P, StringStack.ClosesEnd P [')', '(', '1', ')'] .initial ∧
      DoubleStack.ClosesEnd P [')', '(', '1', ')']) ↔
        closesSafe 0 false (seen [')', '(', '1', ')']) = true :=
  paren_loops_end_iff (by decide) rfl

/-- On `1+2)` the loop of `mtob` reads `stack[-1]`, and that of `calculate` goes on for ever. -/
theorem unmatched_close_never_ends :
    InAlphabet ['1', '+', '2', ')'] ∧ ¬ StringStack.ClosesEnd x86 ['1', '+', '2', ')'] .initial ∧
      ¬ DoubleStack.ClosesEnd x86 ['1', '+', '2', ')'] := by
  have hs : InAlphabet ['1', '+', '2', ')'] := by decide
  refine ⟨hs, fun h => ?_, fun h => ?_⟩
  · have hsafe := h.closesSafe hs (StringStack.sized_of_length (by decide)) rfl
    exact absurd hsafe (by decide)
  · have htakes : Takes x86 ['1', '+', '2', ')'] 0 _ 3 :=
      .num (by decide) rfl (by decide) (.op (by decide) rfl rfl
        (.num (by decide) rfl (by decide) (.refl 3)))
    obtain ⟨k, st, hk, -, hscan, hidx⟩ :=
      ((DoubleStack.Scanning.start _).reaches htakes rfl rfl).2 _ rfl
    have hi : InScan ['1', '+', '2', ')'] st.scandIndex := by
      rw [hidx]
      decide
    have hne : DoubleStack.stackIsEmpty st.pair.opst = false := by
      simpa using mt hscan.holds.isEmpty_iff.mp (by simp)
    have hadd : ∀ a1 a2, ∃ r, DoubleStack.doOneCal x86 '+' a1 a2 = .ok r := fun a1 a2 => by
      show ∃ r, x86.result '+' a1 a2 (a1.val + a2.val) = .ok r
      unfold Platform.result
      split
      · exact ⟨_, rfl⟩
      · exact ⟨CInt.wrap (a1.val + a2.val), rfl⟩
    have hloop : Diverges (loop (DoubleStack.closeBody x86) st.pair) := by
      refine DoubleStack.close_diverges (hscan.size_pos hi) fun c hc => ?_
      rw [hscan.holds.items_eq] at hc
      obtain rfl := List.mem_singleton.mp hc
      exact ⟨by decide, hadd⟩
    rcases h k st hk hi (by rw [hidx]; rfl) hne with ⟨pair, hret⟩ | hfault
    · exact hret.not_diverges hloop
    · exact hfault.not_diverges hloop

end GoodCommand.Calculator
