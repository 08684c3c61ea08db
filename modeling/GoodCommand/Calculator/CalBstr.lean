import GoodCommand.Calculator.MtobRun

/-! `cal_bstr` reads a text back and evaluates it on a stack of values. -/

namespace GoodCommand.Calculator.StringStack
open Fuel Shunting

variable {P : Platform} {s : List Char}

def calStep (P : Platform) (V : List CInt) : Entry → Except Fault (List CInt)
  | .num v => .ok (v :: V)
  | .op c =>
    match V with
    | a1 :: a2 :: V => do
      let r ← calOp P c a1 a2
      return r :: V
    | _ => .error (.stackIndex (-1))

theorem calStep_op_ok {c : Char} {V V' : List CInt} (h : calStep P V (.op c) = .ok V') :
    ∃ a1 a2 W r, V = a1 :: a2 :: W ∧ calOp P c a1 a2 = .ok r ∧ V' = r :: W := by
  match V, h with
  | a1 :: a2 :: W, h =>
    simp only [calStep] at h
    cases hop : calOp P c a1 a2 with
    | error e => rw [hop] at h; cases h
    | ok r =>
      rw [hop] at h
      cases h
      exact ⟨a1, a2, W, r, rfl, hop, rfl⟩

theorem calStep_length {e : Entry} {V V' : List CInt} (h : calStep P V e = .ok V') :
    V'.length + 1 = V.length + 2 * numbers [e] := by
  cases e with
  | num v => cases h; simp
  | op c =>
    obtain ⟨a1, a2, W, r, rfl, -, rfl⟩ := calStep_op_ok h
    simp

theorem foldlM_calStep_length {es : List Entry} {V V' : List CInt}
    (h : es.foldlM (calStep P) V = .ok V') :
    V'.length + es.length = V.length + 2 * numbers es := by
  induction es generalizing V with
  | nil => cases h; simp
  | cons e es ih =>
    obtain ⟨V₁, hstep, hrest⟩ := foldlM_cons_ok h
    have hsum : numbers (e :: es) = numbers [e] + numbers es := numbers_append [e] es
    have hone := calStep_length hstep
    have hes := ih hrest
    simp only [List.length_cons]
    omega

theorem foldlM_calStep_ne_nil {es : List Entry} {V V' : List CInt} (hne : es ≠ [])
    (h : es.foldlM (calStep P) V = .ok V') : V' ≠ [] := by
  induction es generalizing V with
  | nil => exact absurd rfl hne
  | cons e es ih =>
    obtain ⟨V₁, hstep, hrest⟩ := foldlM_cons_ok h
    by_cases hnil : es = []
    · subst hnil
      cases hrest
      cases e with
      | num v => cases hstep; simp
      | op c =>
        obtain ⟨a1, a2, W, r, -, -, rfl⟩ := calStep_op_ok hstep
        simp
    · exact ih hnil hrest

theorem readInt_printD (v : CInt) : readInt P (printD v) = .ok v := by
  have h := sscanfD_printD P v (show NoDigit [] by simp [NoDigit])
  rw [List.append_nil] at h
  rw [readInt, h]

theorem Holds.read {g g' : Globals} {v : CInt} {V : List CInt}
    (h : Holds g ((v :: V).map printD)) (hg : g'.stack = g.stack) {i : CInt}
    (hi : i.val = V.length) :
    ∃ e, StringStack.stackAt g' i = .ok e ∧ readInt P e.numOp = .ok v := by
  obtain ⟨e, he, hv⟩ := Holds.stackAt (T := V.map printD) h hg (i := i) (by simpa using hi)
  exact ⟨e, he, by rw [hv, readInt_printD]⟩

theorem Holds.calBstrOp {c : Char} {g : Globals} {a1 a2 : CInt} {V : List CInt}
    (h : Holds g ((a1 :: a2 :: V).map printD)) :
    Holds (stackPop (stackPop g).2).2 (V.map printD) ∧
      calBstrOp P c g = (calOp P c a1 a2 >>= fun r =>
        stackPush (stackPop (stackPop g).2).2 one (printD r)) := by
  have hpop : Holds (stackPop g).2 ((a2 :: V).map printD) := h.pop.1
  have ht1 : (stackPop g).1.val = (a2 :: V).length := by simpa using h.it_eq
  have ht2 : (stackPop (stackPop g).2).1.val = V.length := by simpa using hpop.it_eq
  obtain ⟨e1, he1, hr1⟩ := h.read (P := P)
      (show (stackPop (stackPop g).2).2.stack = _ from rfl) ht1
  obtain ⟨e2, he2, hr2⟩ := hpop.read (P := P)
      (show (stackPop (stackPop g).2).2.stack = _ from rfl) ht2
  refine ⟨hpop.pop.1, ?_⟩
  simp only [StringStack.calBstrOp, he1, hr1, he2, hr2, bind, Except.bind]

theorem calBstrOp_ok {c : Char} {g : Globals} {V V' : List CInt} (h : Holds g (V.map printD))
    (hstep : calStep P V (.op c) = .ok V') :
    ∃ g', calBstrOp P c g = .ok g' ∧ Holds g' (V'.map printD) ∧
      g'.stack.length = g.stack.length ∧ g'.overflows = g.overflows := by
  obtain ⟨a1, a2, W, r, rfl, hop, rfl⟩ := calStep_op_ok hstep
  obtain ⟨hpop, heq⟩ := h.calBstrOp (P := P) (c := c)
  rw [hop] at heq
  have hlen := h.length_le
  have hroom : (W.map printD).length < (stackPop (stackPop g).2).2.stack.length := by
    show _ < g.stack.length
    simp only [List.length_cons, List.length_map] at hlen ⊢
    omega
  obtain ⟨g', hg', hholds, hsize, hov⟩ := hpop.push hroom one (length_printD_lt r)
  exact ⟨g', heq.trans hg', hholds, hsize, hov⟩

theorem calBstrOp_error {c : Char} {g : Globals} {V : List CInt} {e : Fault}
    (h : Holds g (V.map printD)) (hstep : calStep P V (.op c) = .error e) :
    calBstrOp P c g = .error e := by
  match V, hstep with
  | [], hstep =>
    cases hstep
    have hit : g.it.val = -1 := by simpa using h.it_eq
    simp [calBstrOp, stackPop, StringStack.stackAt, hit, bind, Except.bind]
  | [a1], hstep =>
    cases hstep
    have hit : (stackPop g).1.val = ([] : List CInt).length := by simpa using h.it_eq
    obtain ⟨e1, he1, hr1⟩ := h.read (P := P)
        (show (stackPop (stackPop g).2).2.stack = _ from rfl) hit
    have hit2 : (stackPop (stackPop g).2).1.val = -1 := by
      have hpop := h.pop.1.it_eq
      simpa using hpop
    have he2 : StringStack.stackAt (stackPop (stackPop g).2).2 (stackPop (stackPop g).2).1 =
        .error (.stackIndex (-1)) := by
      rw [StringStack.stackAt, hit2, if_neg (by decide)]
    simp only [calBstrOp, he1, hr1, he2, bind, Except.bind]
  | a1 :: a2 :: V, hstep =>
    obtain ⟨-, heq⟩ := h.calBstrOp (P := P) (c := c)
    simp only [calStep] at hstep
    cases hop : calOp P c a1 a2 with
    | ok r => rw [hop] at hstep; cases hstep
    | error e' =>
      rw [hop] at hstep heq
      cases hstep
      exact heq

/-! ### The scan -/

theorem calBody_op {st : Cal} (hi : InScan s st.scandIndex) {c : Char} {cs : List Char}
    (htxt : s.drop st.scandIndex = c :: cs) (hc : isLegalOp c = true) :
    calBody P s st = Prog.lift (calBstrOp P c st.g) >>= fun g =>
      pure (.next ⟨st.scandIndex + 1, g⟩) := by
  rw [calBody, if_pos hi, htxt]
  dsimp only [sscanfC]
  rw [hi.advance, if_pos hc]
  rfl

theorem calBody_blank {st : Cal} (hi : InScan s st.scandIndex) {cs : List Char}
    (htxt : s.drop st.scandIndex = ' ' :: cs) :
    calBody P s st = pure (.next { st with scandIndex := st.scandIndex + 1 }) := by
  rw [calBody, if_pos hi, htxt]
  dsimp only [sscanfC]
  rw [hi.advance, if_neg (by decide), if_pos rfl]
  rfl

theorem calBody_num {st : Cal} (hi : InScan s st.scandIndex) {v : CInt} {n : ℕ}
    (hlex : lexeme P (s.drop st.scandIndex) = .num v n) :
    calBody P s st = Prog.lift (stackPush st.g one (printD v)) >>= fun g =>
      Prog.lift (advance st.scandIndex n) >>= fun i => pure (.next ⟨i, g⟩) := by
  have hread := lexeme_num hlex
  obtain ⟨c, cs, htxt⟩ := List.exists_cons_of_ne_nil (drop_ne_nil hi.lt_length)
  rw [htxt] at hread hlex
  obtain ⟨hop, hsp⟩ := num_head hlex
  rw [calBody, if_pos hi, htxt]
  dsimp only [sscanfC]
  rw [hread, if_neg (by simp [hop]), if_neg hsp]
  rfl

structure Calling (s : List Char) (ov : ℕ) (st : Cal) (V : List CInt) : Prop where
  holds : Holds st.g (V.map printD)
  size : st.g.stack.length = s.length + 1
  cost : V.length ≤ st.scandIndex
  reports : st.g.overflows = ov

variable {ov : ℕ} {st : Cal} {V : List CInt}

theorem Calling.start (hlen : (s.length : ℤ) < intMax) {g : Globals} (hg : g.it.val = -1) :
    ∃ g', stackInit g (strLen s) = .ok g' ∧ Calling s g.overflows ⟨0, g'⟩ [] ∧ g'.it = g.it := by
  have hval : (strLen s).val = s.length := strLen_of_le hlen.le
  refine ⟨_, stackInit_eq g hval (by rw [hval]; exact hlen), ⟨holds_init hg hval _, ?_, ?_, rfl⟩,
    rfl⟩
  · exact List.length_replicate
  · exact Nat.zero_le _

theorem Calling.blank (h : Calling s ov st V) (hi : InScan s st.scandIndex) {cs : List Char}
    (htxt : s.drop st.scandIndex = ' ' :: cs) :
    ∃ st', Returns (calBody P s st) (.next st') ∧ Calling s ov st' V ∧
      st'.scandIndex = st.scandIndex + 1 :=
  ⟨{ st with scandIndex := st.scandIndex + 1 }, returns_of_eq (calBody_blank hi htxt),
    ⟨h.holds, h.size, h.cost.trans (Nat.le_succ _), h.reports⟩, rfl⟩

theorem Calling.num (h : Calling s ov st V) {v : CInt} {n : ℕ} (hi : InScan s st.scandIndex)
    (hlex : lexeme P (s.drop st.scandIndex) = .num v n)
    (hn : ((st.scandIndex + n : ℕ) : ℤ) ≤ intMax) :
    ∃ st', Returns (calBody P s st) (.next st') ∧ Calling s ov st' (v :: V) ∧
      st'.scandIndex = st.scandIndex + n := by
  obtain ⟨hpos, -, -⟩ := sscanfD_bounds (lexeme_num hlex)
  have hcost := h.cost
  have hlt := hi.lt_length
  have hroom : (V.map printD).length < st.g.stack.length := by
    rw [List.length_map, h.size]
    omega
  obtain ⟨g', hg', hholds, hsize, hov⟩ := h.holds.push hroom one (length_printD_lt v)
  refine ⟨⟨st.scandIndex + n, g'⟩, ?_, ⟨hholds, hsize.trans h.size, ?_, hov.trans h.reports⟩, rfl⟩
  · rw [calBody_num hi hlex]
    exact (returns_lift hg').bind ((returns_lift (advance_ok hn)).bind (returns_pure _))
  · simp only [List.length_cons]
    omega

theorem Calling.op (h : Calling s ov st V) {c : Char} {cs : List Char} {V' : List CInt}
    (hi : InScan s st.scandIndex) (htxt : s.drop st.scandIndex = c :: cs)
    (hc : isLegalOp c = true) (hstep : calStep P V (.op c) = .ok V') :
    ∃ st', Returns (calBody P s st) (.next st') ∧ Calling s ov st' V' ∧
      st'.scandIndex = st.scandIndex + 1 := by
  obtain ⟨g', hg', hholds, hsize, hov⟩ := calBstrOp_ok h.holds hstep
  refine ⟨⟨st.scandIndex + 1, g'⟩, ?_, ⟨hholds, hsize.trans h.size, ?_, hov.trans h.reports⟩, rfl⟩
  · rw [calBody_op hi htxt hc]
    exact (returns_lift hg').bind (returns_pure _)
  · have hlen := calStep_length hstep
    have hcost := h.cost
    show V'.length ≤ st.scandIndex + 1
    simp only [numbers_op, numbers_nil] at hlen
    omega

theorem Calling.op_faults (h : Calling s ov st V) {c : Char} {cs : List Char} {e : Fault}
    (hi : InScan s st.scandIndex) (htxt : s.drop st.scandIndex = c :: cs)
    (hc : isLegalOp c = true) (hstep : calStep P V (.op c) = .error e) :
    Faults (calBody P s st) e := by
  rw [calBody_op hi htxt hc]
  exact Faults.bind (faults_lift (calBstrOp_error h.holds hstep))

theorem Calling.run {i j : ℕ} {es : List Entry} (htakes : Takes P s i es j)
    (hj : ¬ InScan s j) (h : Calling s ov st V) (hi : st.scandIndex = i) :
    Follows (loop (calBody P s) st) (es.foldlM (calStep P) V)
      fun V' g' => Holds g' (V'.map printD) ∧ g'.overflows = ov := by
  induction htakes generalizing st V with
  | refl =>
    subst hi
    refine ⟨st.g, returns_loop_exit ?_, h.holds, h.reports⟩
    rw [calBody, if_neg hj]
    exact returns_pure _
  | blank hin htxt _ ih =>
    subst hi
    obtain ⟨st₁, hret, hs, hidx⟩ := h.blank (P := P) hin htxt
    exact (ih hj hs hidx).loop_next hret
  | @op i j c cs es hin htxt hc _ ih =>
    subst hi
    rw [List.foldlM_cons]
    cases hstep : calStep P V (.op c) with
    | error e => exact faults_loop (h.op_faults hin htxt hc hstep)
    | ok V₁ =>
      obtain ⟨st₁, hret, hs, hidx⟩ := h.op hin htxt hc hstep
      exact (ih hj hs hidx).loop_next hret
  | num hin hnum hn _ ih =>
    subst hi
    obtain ⟨st₁, hret, hs, hidx⟩ := h.num hin hnum hn
    rw [List.foldlM_cons]
    exact (ih hj hs hidx).loop_next hret

/-! ### `cal_bstr` -/

section
variable {es : List Entry} {g : Globals}

theorem calBstr_empty {g' : Globals} (hinit : stackInit g (strLen s) = .ok g')
    (h : (strLen s).val ≤ 0) : calBstr P s g = pure (CInt.zero, g') := by
  rw [calBstr, hinit]
  simp only [Prog.liftM_eq_lift, Prog.lift_ok]
  rw [Prog.pure_bind, if_pos h]

theorem calBstr_scan {g' : Globals} (hinit : stackInit g (strLen s) = .ok g')
    (h : ¬ (strLen s).val ≤ 0) :
    calBstr P s g = loop (calBody P s) ⟨0, g'⟩ >>= fun g =>
      Prog.lift (stackAt (stackPop g).2 (stackPop g).1) >>= fun e =>
        Prog.lift (readInt P e.numOp) >>= fun rNum => pure (rNum, stackFree (stackPop g).2) := by
  rw [calBstr, hinit]
  simp only [Prog.liftM_eq_lift, Prog.lift_ok]
  rw [Prog.pure_bind, if_neg h]

theorem calBstr_nil (hg : g.it.val = -1) :
    ∃ g', Returns (calBstr P [] g) (CInt.zero, g') ∧ g'.it.val = -1 := by
  obtain ⟨g', hinit, -, hit⟩ := Calling.start (s := []) (by decide) hg
  exact ⟨g', returns_of_eq (calBstr_empty hinit (by decide)), hit ▸ hg⟩

/-- `cal_bstr` on a text that is not empty, started with an empty stack: the last value is
returned, and the values under it stay on the stack. -/
theorem calBstr_returns (hlex : Splits P s es) (hlen : (s.length : ℤ) < intMax) (hs : s ≠ [])
    (hg : g.it.val = -1) {v : CInt} (hfold : es.foldlM (calStep P) [] = .ok (v :: V)) :
    ∃ g', Returns (calBstr P s g) (v, g') ∧ g'.it.val = V.length - 1 ∧
      g'.overflows = g.overflows := by
  obtain ⟨g', hinit, hstart, -⟩ := Calling.start hlen hg
  have hscan := hlex.scans hlen.le
  obtain ⟨g₁, hloop, hholds, hov⟩ := (hstart.run hscan.takes hscan.ends rfl).ok hfold
  have hit : (stackPop g₁).1.val = V.length := by simpa using hholds.it_eq
  obtain ⟨e, he, hread⟩ := hholds.read (P := P) (show (stackPop g₁).2.stack = _ from rfl) hit
  have hpos : ¬ (strLen s).val ≤ 0 := by
    have hne := List.length_pos_of_ne_nil hs
    rw [strLen_of_le hlen.le]
    omega
  refine ⟨stackFree (stackPop g₁).2, ?_, ?_, hov⟩
  · rw [calBstr_scan hinit hpos]
    exact hloop.bind ((returns_lift he).bind ((returns_lift hread).bind (returns_pure _)))
  · have hpop := hholds.pop.1.it_eq
    simpa using hpop

theorem calBstr_faults (hlex : Splits P s es) (hlen : (s.length : ℤ) < intMax) (hs : s ≠ [])
    (hg : g.it.val = -1) {e : Fault} (hfold : es.foldlM (calStep P) [] = .error e) :
    Faults (calBstr P s g) e := by
  obtain ⟨g', hinit, hstart, -⟩ := Calling.start hlen hg
  have hscan := hlex.scans hlen.le
  have hpos : ¬ (strLen s).val ≤ 0 := by
    have hne := List.length_pos_of_ne_nil hs
    rw [strLen_of_le hlen.le]
    omega
  rw [calBstr_scan hinit hpos]
  exact Faults.bind ((hstart.run hscan.takes hscan.ends rfl).error hfold)

end

end GoodCommand.Calculator.StringStack
