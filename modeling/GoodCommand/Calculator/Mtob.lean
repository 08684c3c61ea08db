import GoodCommand.Calculator.StringStack

/-! `mtob` follows the operator stack of `Yard`: every turn of its scan does to the string stack and
the buffer what one token does there. -/

namespace GoodCommand.Calculator.StringStack
open Fuel Shunting

structure Rep (n ov : ℕ) (st : Scan) (K out : List Char) : Prop where
  holds : Holds st.g (K.map fun c => [c])
  size : st.g.stack.length = n + 1
  bi : st.bi = out.length
  bstr : st.bstr = buffer ((n + 1) * 2) out
  le_cap : out.length ≤ (n + 1) * 2
  reports : st.g.overflows = ov

variable {P : Platform} {n ov : ℕ} {st : Scan} {K out : List Char}

theorem Rep.setIndex (h : Rep n ov st K out) (i : ℕ) :
    Rep n ov { st with scandIndex := i } K out :=
  ⟨h.holds, h.size, h.bi, h.bstr, h.le_cap, h.reports⟩

theorem Rep.write {c : Char} (h : Rep n ov st (c :: K) out)
    (hroom : out.length + 2 ≤ (n + 1) * 2) :
    ∃ e b b', stackAt (stackPop st.g).2 (stackPop st.g).1 = .ok e ∧ e.numOp = [c] ∧
      strcpy st.bstr st.bi [c] = .ok b ∧ bufStore b (st.bi + 1) [' '] = .ok b' ∧
      Rep n ov ⟨st.scandIndex, st.bi + 1 + 1, b', (stackPop st.g).2⟩ K (out ++ [c, ' ']) := by
  obtain ⟨hpop, e, he, hc⟩ := h.holds.pop
  have hcpy : strcpy st.bstr st.bi [c] = .ok (buffer ((n + 1) * 2) (out ++ [c])) := by
    rw [h.bstr, h.bi]
    exact strcpy_buffer (by simp only [List.length_singleton]; omega)
  have hsp : bufStore (buffer ((n + 1) * 2) (out ++ [c])) (st.bi + 1) [' '] =
      .ok (buffer ((n + 1) * 2) (out ++ [c] ++ [' '])) := by
    have hlen : st.bi + 1 = (out ++ [c]).length := by simp [h.bi]
    rw [hlen]
    exact bufStore_buffer (by simp only [List.length_append, List.length_singleton]; omega)
  refine ⟨e, _, _, he, hc, hcpy, hsp, hpop, h.size, ?_, ?_, ?_, h.reports⟩
  · simp [h.bi]
  · simp
  · simpa using hroom

theorem Rep.write_overruns {c : Char} (h : Rep n ov st (c :: K) out)
    (hroom : (n + 1) * 2 < out.length + 2) :
    ∃ e f, stackAt (stackPop st.g).2 (stackPop st.g).1 = .ok e ∧ e.numOp = [c] ∧
      strcpy st.bstr st.bi [c] = .error f := by
  obtain ⟨-, e, he, hc⟩ := h.holds.pop
  refine ⟨e, .bufferIndex (out.length + 2), he, hc, ?_⟩
  rw [h.bstr, h.bi]
  exact bufStore_overrun h.le_cap hroom

theorem Rep.emitOp {c : Char} (h : Rep n ov st (c :: K) out)
    (hroom : out.length + 2 ≤ (n + 1) * 2) :
    ∃ st', emitOp st = .ok st' ∧ Rep n ov st' K (out ++ [c, ' ']) ∧
      st'.scandIndex = st.scandIndex := by
  obtain ⟨e, b, b', he, hc, hcpy, hsp, hrep⟩ := h.write hroom
  refine ⟨_, ?_, hrep, rfl⟩
  simp only [StringStack.emitOp, he, hc, hcpy, hsp, bind, Except.bind, pure, Except.pure]

theorem Rep.top {c : Char} (h : Rep n ov st (c :: K) out) :
    ∃ e, stackAt st.g (stackTop st.g) = .ok e ∧ firstChar e.numOp = c := by
  obtain ⟨e, he, hc⟩ := h.holds.top
  exact ⟨e, he, by rw [hc]; rfl⟩

theorem Rep.isEmpty_iff (h : Rep n ov st K out) : isEmpty st.g = true ↔ K = [] := by
  rw [h.holds.isEmpty_iff, List.map_eq_nil_iff]

/-! ### The inner loops -/

theorem closeBody_exit (h : Rep n ov st ('(' :: K) out) : closeBody st = pure (.exit st) := by
  obtain ⟨e, he, hc⟩ := h.top
  simp [closeBody, he, hc]

theorem closeBody_next {c : Char} {st' : Scan} (h : Rep n ov st (c :: K) out) (hne : c ≠ '(')
    (hst : emitOp st = .ok st') : closeBody st = pure (.next st') := by
  obtain ⟨e, he, hc⟩ := h.top
  simp [closeBody, he, hc, hne, hst]

theorem Rep.close (h : Rep n ov st K out) (hroom : out.length + 2 * K.length ≤ (n + 1) * 2)
    (hK : '(' ∈ K) :
    ∃ st', Returns (loop closeBody st) st' ∧
      Rep n ov st' (K.dropWhile (· ≠ '(')) (out ++ text ((K.takeWhile (· ≠ '(')).map .op)) ∧
      st'.scandIndex = st.scandIndex := by
  induction K generalizing st out with
  | nil => cases hK
  | cons c K ih =>
    rw [List.length_cons] at hroom
    by_cases hc : c = '('
    · subst hc
      exact ⟨st, returns_loop_exit (returns_of_eq (closeBody_exit h)), by simpa using h, rfl⟩
    · obtain ⟨st₁, hst₁, hrep, hidx⟩ := h.emitOp (by omega)
      have hmem : '(' ∈ K := (List.mem_cons.mp hK).resolve_left fun h0 => hc h0.symm
      obtain ⟨st', hret, hrep', hidx'⟩ := ih hrep (by simpa using by omega) hmem
      have hbody := closeBody_next h hc hst₁
      refine ⟨st', returns_loop_next (returns_of_eq hbody) hret, ?_, hidx'.trans hidx⟩
      simpa [hc, entryText] using hrep'

/-- Without an open parenthesis the loop comes to read `stack[-1]`. -/
theorem Rep.close_faults (h : Rep n ov st K out) (hroom : out.length + 2 * K.length ≤ (n + 1) * 2)
    (hK : '(' ∉ K) :
    Faults (loop closeBody st) (.stackIndex (-1)) := by
  induction K generalizing st out with
  | nil =>
    apply faults_loop
    have htop := h.holds.top_nil
    exact Faults.bind (faults_lift htop)
  | cons c K ih =>
    rw [List.length_cons] at hroom
    obtain ⟨hc, hmem⟩ := not_or.mp (List.mem_cons.not.mp hK)
    obtain ⟨st₁, hst₁, hrep, -⟩ := h.emitOp (by omega)
    have hbody := closeBody_next h (Ne.symm hc) hst₁
    exact faults_loop_next (returns_of_eq hbody) (ih hrep (by simpa using by omega) hmem)

theorem reduceBody_exit {c q : Char} (h : Rep n ov st (q :: K) out) (hlt : ¬ prio P c ≤ prio P q) :
    reduceBody P c st = pure (.exit st) := by
  obtain ⟨e, he, hq⟩ := h.top
  simp [reduceBody, he, hq, hlt]

theorem reduceBody_emit {c q : Char} {st' : Scan} (h : Rep n ov st (q :: K) out)
    (hle : prio P c ≤ prio P q) (hst : emitOp st = .ok st') :
    reduceBody P c st = pure (if isEmpty st'.g then .exit st' else .next st') := by
  obtain ⟨e, he, hq⟩ := h.top
  simp only [reduceBody, he, hq, hle, hst, Prog.liftM_eq_lift, Prog.lift_ok, Prog.pure_bind,
    if_true]
  split <;> rfl

theorem Rep.reduce {c : Char} (h : Rep n ov st K out)
    (hroom : out.length + 2 * K.length ≤ (n + 1) * 2) (hK : K ≠ []) :
    ∃ st', Returns (loop (reduceBody P c) st) st' ∧
      Rep n ov st' (K.dropWhile fun q => prio P c ≤ prio P q)
        (out ++ text ((K.takeWhile fun q => prio P c ≤ prio P q).map .op)) ∧
      st'.scandIndex = st.scandIndex := by
  induction K generalizing st out with
  | nil => exact absurd rfl hK
  | cons q K ih =>
    rw [List.length_cons] at hroom
    by_cases hle : prio P c ≤ prio P q
    · obtain ⟨st₁, hst₁, hrep, hidx⟩ := h.emitOp (by omega)
      have hbody := reduceBody_emit h hle hst₁
      by_cases hnil : K = []
      · subst hnil
        rw [if_pos (hrep.isEmpty_iff.mpr rfl)] at hbody
        refine ⟨st₁, returns_loop_exit (returns_of_eq hbody), ?_, hidx⟩
        simpa [hle, entryText] using hrep
      · rw [if_neg (mt hrep.isEmpty_iff.mp hnil)] at hbody
        obtain ⟨st', hret, hrep', hidx'⟩ := ih hrep (by simpa using by omega) hnil
        refine ⟨st', returns_loop_next (returns_of_eq hbody) hret, ?_, hidx'.trans hidx⟩
        simpa [hle, entryText] using hrep'
    · refine ⟨st, returns_loop_exit (returns_of_eq (reduceBody_exit h hle)), ?_, rfl⟩
      simpa [hle] using h

theorem Rep.pushOp (h : Rep n ov st K out) (hroom : K.length ≤ n) (c : Char) :
    ∃ st', pushOp c st = .ok st' ∧ Rep n ov st' (c :: K) out ∧
      st'.scandIndex = st.scandIndex := by
  have hlt : (K.map fun c => [c]).length < st.g.stack.length := by
    rw [List.length_map, h.size]
    omega
  have htxt : [c].length < numMaxLen := (by decide : 1 < numMaxLen)
  obtain ⟨g', hg', hholds, hsize, hov⟩ := h.holds.push hlt CInt.zero htxt
  refine ⟨{ st with g := g' }, ?_, ⟨hholds, hsize.trans h.size, h.bi, h.bstr, h.le_cap,
    hov.trans h.reports⟩, rfl⟩
  simp only [StringStack.pushOp, hg', bind, Except.bind, pure, Except.pure]

/-! ### The operator branch -/

theorem Rep.mtobOp {c : Char} {em K' : List Char} (h : Rep n ov st K out)
    (hroom : out.length + 2 * K.length + 2 ≤ 2 * n) (hyard : yardOp P c K = some (em, K')) :
    ∃ st', Returns (mtobOp P c st) st' ∧ Rep n ov st' K' (out ++ text (em.map .op)) ∧
      st'.scandIndex = st.scandIndex := by
  unfold yardOp at hyard
  unfold StringStack.mtobOp
  split_ifs at hyard with h0 h1 h2
  · cases hyard
    subst h0
    obtain ⟨st', hst, hrep, hidx⟩ := h.pushOp (by omega) c
    refine ⟨st', ?_, by simpa using hrep, hidx⟩
    rw [if_pos (h.isEmpty_iff.mpr rfl)]
    exact returns_lift hst
  · cases hyard
    subst h1
    obtain ⟨st', hst, hrep, hidx⟩ := h.pushOp (by omega) '('
    refine ⟨st', ?_, by simpa using hrep, hidx⟩
    rw [if_neg (mt h.isEmpty_iff.mp h0), if_pos rfl]
    exact returns_lift hst
  · unfold Table.close at hyard
    split_ifs at hyard with hmem
    cases hyard
    change '(' ∈ K at hmem
    obtain ⟨st₁, hret, hrep, hidx⟩ := h.close (by omega) hmem
    rw [if_neg (mt h.isEmpty_iff.mp h0), if_neg h1, if_pos h2]
    refine ⟨_, hret.bind (returns_pure _), ?_, hidx⟩
    -- the loop stops at the open parenthesis, which the last `stack_pop` drops
    obtain ⟨L, hL⟩ := dropWhile_ne_eq_cons hmem
    rw [hL] at hrep
    have htail : (K.dropWhile fun q => decide (q ≠ (table P).left)).tail = L := by
      show (K.dropWhile fun q => decide (q ≠ '(')).tail = L
      rw [hL]; rfl
    rw [htail]
    exact ⟨hrep.holds.pop.1, hrep.size, hrep.bi, hrep.bstr, hrep.le_cap, hrep.reports⟩
  · cases hyard
    obtain ⟨st₁, hret, hrep, hidx⟩ := h.reduce (P := P) (c := c) (by omega) h0
    have hlen := (List.dropWhile_sublist (l := K) fun q => prio P c ≤ prio P q).length_le
    obtain ⟨st', hst, hrep', hidx'⟩ := hrep.pushOp (by omega) c
    refine ⟨st', ?_, hrep', hidx'.trans hidx⟩
    rw [if_neg (mt h.isEmpty_iff.mp h0), if_neg h1, if_neg h2]
    exact hret.bind (returns_lift hst)

theorem Rep.mtobOp_faults {c : Char} (h : Rep n ov st K out)
    (hroom : out.length + 2 * K.length ≤ (n + 1) * 2) (hyard : yardOp P c K = none) :
    Faults (StringStack.mtobOp P c st) (.stackIndex (-1)) := by
  obtain ⟨h0, rfl, hmem⟩ := yardOp_eq_none_iff.mp hyard
  unfold StringStack.mtobOp
  rw [if_neg (mt h.isEmpty_iff.mp h0), if_neg (by decide), if_pos rfl]
  exact Faults.bind (h.close_faults hroom hmem)

theorem Rep.emitNum (h : Rep n ov st K out) (v : CInt)
    (hroom : (out ++ entryText (.num v)).length < (n + 1) * 2) :
    ∃ st', emitNum v st = .ok st' ∧ Rep n ov st' K (out ++ entryText (.num v)) ∧
      st'.scandIndex = st.scandIndex := by
  have hcpy : strcpy st.bstr st.bi (printD v ++ [' ']) =
      .ok (buffer ((n + 1) * 2) (out ++ entryText (.num v))) := by
    rw [h.bstr, h.bi]
    exact strcpy_buffer (by rwa [← List.length_append])
  refine ⟨⟨st.scandIndex, st.bi + ((printD v).length + 1),
    buffer ((n + 1) * 2) (out ++ entryText (.num v)), st.g⟩, ?_,
    ⟨h.holds, h.size, ?_, rfl, hroom.le, h.reports⟩, rfl⟩
  · simp only [StringStack.emitNum, hcpy, bind, Except.bind, pure, Except.pure]
  · simp [h.bi, entryText]

theorem Rep.emitNum_overruns (h : Rep n ov st K out) (v : CInt)
    (hroom : (n + 1) * 2 ≤ (out ++ entryText (.num v)).length) :
    ∃ f, StringStack.emitNum v st = .error f := by
  have hlen : (n + 1) * 2 < out.length + (printD v ++ [' '] ++ ['\x00']).length := by
    simp only [entryText, List.length_append, List.length_singleton] at hroom ⊢
    omega
  rw [StringStack.emitNum, h.bstr, h.bi, strcpy, bufStore_overrun h.le_cap hlen]
  exact ⟨_, rfl⟩

end GoodCommand.Calculator.StringStack
