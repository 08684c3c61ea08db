import GoodCommand.Calculator.DoubleStackDefs
import GoodCommand.Calculator.Tokens

/-! `calculate` of `double_stack_224.c` follows the operator stack of `Yard`; on the number stack it
does, entry by entry, what the postfix sequence says. -/

namespace GoodCommand.Calculator.DoubleStack
open Fuel Shunting

variable {P : Platform} {α : Type}

structure Holds (n : ℕ) (st : Stack α) (items : List α) : Prop where
  items_eq : st.items = items
  maxSize_eq : st.maxSize.val.toNat = n
  pops : st.emptyPops = 0
  pushes : st.fullPushes = 0

theorem holds_init (size : CInt) : Holds size.val.toNat (stackInit size : Stack α) [] :=
  ⟨rfl, rfl, rfl, rfl⟩

theorem Holds.length_le {n : ℕ} {st : Stack α} {items : List α} (h : Holds n st items) :
    items.length ≤ n := by
  rw [← h.items_eq, ← h.maxSize_eq]
  exact st.fits

theorem Holds.isEmpty_iff {n : ℕ} {st : Stack α} {items : List α} (h : Holds n st items) :
    stackIsEmpty st = true ↔ items = [] := by
  rw [stackIsEmpty, h.items_eq, List.isEmpty_iff]

theorem not_isFull {st : Stack α} (h : st.items.length < st.maxSize.val.toNat) :
    ¬ stackIsFull st = true := by
  have hmin := st.maxSize.property.2
  have hpred : (CInt.wrap (st.maxSize.val - 1)).val = st.maxSize.val - 1 :=
    CInt.wrap_of_fits ⟨by unfold intMin; omega, by omega⟩
  rw [stackIsFull, hpred, decide_eq_true_eq]
  omega

theorem stackPush_of_lt {st : Stack α} (h : st.items.length < st.maxSize.val.toNat) (e : α) :
    stackPush st e = .ok { st with items := e :: st.items, fits := h } := by
  rw [stackPush, if_neg (not_isFull h), dif_pos h]

theorem stackPush_ok {st : Stack α} (h : 0 < st.maxSize.val) (e : α) :
    ∃ st', stackPush st e = .ok st' := by
  unfold stackPush
  split_ifs with hfull hlt
  · exact ⟨_, rfl⟩
  · exact ⟨_, rfl⟩
  · -- a stack of `max_size` entries is full
    refine absurd ?_ hfull
    have hfits := st.fits
    have hmin := st.maxSize.property.2
    have hpred : (CInt.wrap (st.maxSize.val - 1)).val = st.maxSize.val - 1 :=
      CInt.wrap_of_fits ⟨by unfold intMin; omega, by omega⟩
    rw [stackIsFull, hpred, decide_eq_true_eq]
    omega

theorem stackPush_keeps {st st' : Stack α} {e : α} (h : stackPush st e = .ok st') :
    st'.maxSize = st.maxSize ∧ st'.emptyPops = st.emptyPops := by
  unfold stackPush at h
  split_ifs at h <;> cases h <;> exact ⟨rfl, rfl⟩

theorem Holds.push {n : ℕ} {st : Stack α} {items : List α} (h : Holds n st items)
    (hroom : items.length < n) (e : α) :
    ∃ st', stackPush st e = .ok st' ∧ Holds n st' (e :: items) :=
  ⟨_, stackPush_of_lt (by rw [h.items_eq, h.maxSize_eq]; exact hroom) e,
    by simp [h.items_eq], h.maxSize_eq, h.pops, h.pushes⟩

variable [Cell α]

theorem Holds.top {n : ℕ} {st : Stack α} {e : α} {items : List α} (h : Holds n st (e :: items)) :
    stackTop st = e := by
  rw [stackTop, h.items_eq, List.headD_cons]

theorem stackPop_cons {st : Stack α} {e : α} {items : List α} (h : st.items = e :: items) :
    (stackPop st).1 = e ∧ (stackPop st).2.items = items ∧ (stackPop st).2.maxSize = st.maxSize ∧
      (stackPop st).2.emptyPops = st.emptyPops ∧ (stackPop st).2.fullPushes = st.fullPushes := by
  unfold stackPop
  split
  · next e' es heq =>
    rw [heq] at h
    injection h with he hes
    exact ⟨he, hes, rfl, rfl, rfl⟩
  · next heq =>
    rw [heq] at h
    cases h

theorem stackPop_nil {st : Stack α} (h : st.items = []) :
    (stackPop st).1 = Cell.zero ∧ (stackPop st).2.items = [] ∧
      (stackPop st).2.maxSize = st.maxSize ∧ (stackPop st).2.emptyPops = st.emptyPops + 1 ∧
      (stackPop st).2.fullPushes = st.fullPushes := by
  unfold stackPop
  split
  · next e' es heq =>
    rw [heq] at h
    cases h
  · next heq => exact ⟨rfl, heq, rfl, rfl, rfl⟩

theorem stackPop_items (st : Stack α) :
    (stackPop st).2.items = st.items.tail ∧ (stackPop st).2.fullPushes = st.fullPushes := by
  cases hst : st.items with
  | nil => exact ⟨(stackPop_nil hst).2.1, (stackPop_nil hst).2.2.2.2⟩
  | cons e es => exact ⟨(stackPop_cons hst).2.1, (stackPop_cons hst).2.2.2.2⟩

theorem stackPop_maxSize (st : Stack α) : (stackPop st).2.maxSize = st.maxSize := by
  cases hst : st.items with
  | nil => exact (stackPop_nil hst).2.2.1
  | cons e es => exact (stackPop_cons hst).2.2.1

theorem Holds.pop {n : ℕ} {st : Stack α} {e : α} {items : List α} (h : Holds n st (e :: items)) :
    (stackPop st).1 = e ∧ Holds n (stackPop st).2 items := by
  obtain ⟨he, hitems, hsize, hpops, hpushes⟩ := stackPop_cons h.items_eq
  exact ⟨he, hitems, hsize ▸ h.maxSize_eq, hpops.trans h.pops, hpushes.trans h.pushes⟩

/-! ### The number stack -/

def applyOp (P : Platform) (npst : Stack CInt) (op : Char) : Except Fault (Stack CInt) := do
  let (a1, npst) := stackPop npst
  let (a2, npst) := stackPop npst
  let thisResult ← doOneCal P op a1 a2
  stackPush npst thisResult

def numStep (P : Platform) (npst : Stack CInt) : Entry → Except Fault (Stack CInt)
  | .num v => stackPush npst v
  | .op c => applyOp P npst c

theorem foldlM_ops (P : Platform) (ops : List Char) (npst : Stack CInt) :
    (ops.map Item.op).foldlM (numStep P) npst = ops.foldlM (applyOp P) npst := by
  rw [List.foldlM_map]
  rfl

theorem applyOp_ok {npst npst' : Stack CInt} {op : Char} (h : applyOp P npst op = .ok npst') :
    ∃ r, doOneCal P op (stackPop npst).1 (stackPop (stackPop npst).2).1 = .ok r ∧
      stackPush (stackPop (stackPop npst).2).2 r = .ok npst' := bind_ok h

theorem doOneCal_error {op : Char} {a1 a2 : CInt} {e : Fault}
    (h : doOneCal P op a1 a2 = .error e) : e = .trap := by
  unfold doOneCal at h
  split at h
  · exact P.result_error h
  · exact P.result_error h
  · exact P.result_error h
  · unfold Platform.div at h
    split at h
    · exact P.undefined_error h
    · exact P.result_error h
  · cases h

theorem applyOp_maxSize {npst npst' : Stack CInt} {op : Char} (h : applyOp P npst op = .ok npst') :
    npst'.maxSize = npst.maxSize := by
  obtain ⟨r, -, hpush⟩ := applyOp_ok h
  rw [(stackPush_keeps hpush).1, stackPop_maxSize, stackPop_maxSize]

theorem numStep_maxSize {npst npst' : Stack CInt} {e : Entry} (h : numStep P npst e = .ok npst') :
    npst'.maxSize = npst.maxSize := by
  cases e with
  | num v => exact (stackPush_keeps h).1
  | op c => exact applyOp_maxSize h

theorem applyOp_error {npst : Stack CInt} {op : Char} {e : Fault} (hpos : 0 < npst.maxSize.val)
    (h : applyOp P npst op = .error e) : e = .trap := by
  simp only [applyOp] at h
  cases hop : doOneCal P op (stackPop npst).1 (stackPop (stackPop npst).2).1 with
  | ok r =>
    have hsize : (stackPop (stackPop npst).2).2.maxSize = npst.maxSize := by
      rw [stackPop_maxSize, stackPop_maxSize]
    have hpos' : 0 < (stackPop (stackPop npst).2).2.maxSize.val := hsize ▸ hpos
    obtain ⟨st', hpush⟩ := stackPush_ok hpos' r
    rw [hop] at h
    exact absurd (hpush.symm.trans h) (by simp)
  | error e' =>
    rw [hop] at h
    cases h
    exact doOneCal_error hop

theorem foldlM_applyOp_error {npst : Stack CInt} {ops : List Char} {e : Fault}
    (hpos : 0 < npst.maxSize.val) (h : ops.foldlM (applyOp P) npst = .error e) : e = .trap := by
  induction ops generalizing npst with
  | nil => cases h
  | cons op ops ih =>
    rw [List.foldlM_cons] at h
    cases hop : applyOp P npst op with
    | error e' =>
      rw [hop] at h
      cases h
      exact applyOp_error hpos hop
    | ok npst' =>
      rw [hop] at h
      exact ih (applyOp_maxSize hop ▸ hpos) h

theorem popAndCal_eq {n : ℕ} {st : Pair} {c : Char} {K : List Char}
    (h : Holds n st.opst (c :: K)) :
    popAndCal P st = (applyOp P st.npst c >>= fun npst => .ok ⟨(stackPop st.opst).2, npst⟩) := by
  obtain ⟨hc, -⟩ := h.pop
  simp only [popAndCal, applyOp, hc]
  cases doOneCal P c (stackPop st.npst).1 (stackPop (stackPop st.npst).2).1 <;> rfl

variable {n : ℕ} {st : Pair} {K : List Char}

/-! ### The inner loops -/

theorem close_follows (h : Holds n st.opst K) (hK : '(' ∈ K) :
    Follows (loop (closeBody P) st) ((K.takeWhile (· ≠ '(')).foldlM (applyOp P) st.npst)
      fun npst st' => st'.npst = npst ∧ Holds n st'.opst (K.dropWhile (· ≠ '(')) := by
  induction K generalizing st with
  | nil => cases hK
  | cons c K ih =>
    by_cases hc : c = '('
    · subst hc
      refine ⟨st, returns_loop_exit ?_, rfl, by simpa using h⟩
      rw [closeBody, h.top, if_neg (by simp)]
      exact returns_pure _
    · have hmem : '(' ∈ K := (List.mem_cons.mp hK).resolve_left fun h0 => hc h0.symm
      have hbody : closeBody P st = Prog.lift (popAndCal P st) >>= fun st => pure (.next st) := by
        rw [closeBody, h.top, if_pos hc]
        rfl
      rw [popAndCal_eq h] at hbody
      simp only [List.takeWhile_cons, List.dropWhile_cons, ne_eq, hc, not_false_eq_true,
        decide_true, if_true, List.foldlM_cons]
      cases hop : applyOp P st.npst c with
      | error e =>
        rw [hop] at hbody
        exact faults_loop (hbody ▸ Faults.bind (faults_lift rfl))
      | ok npst =>
        rw [hop] at hbody
        change closeBody P st = pure (.next ⟨(stackPop st.opst).2, npst⟩) at hbody
        exact Follows.loop_next (returns_of_eq hbody) (ih h.pop.2 hmem)

theorem reduce_follows {c : Char} (h : Holds n st.opst K) (hK : K ≠ []) :
    Follows (loop (reduceBody P c) st)
      ((K.takeWhile fun q => prio P c ≤ prio P q).foldlM (applyOp P) st.npst)
      fun npst st' => st'.npst = npst ∧
        Holds n st'.opst (K.dropWhile fun q => prio P c ≤ prio P q) := by
  induction K generalizing st with
  | nil => exact absurd rfl hK
  | cons q K ih =>
    by_cases hle : prio P c ≤ prio P q
    · have hbody : reduceBody P c st = Prog.lift (popAndCal P st) >>= fun st =>
          if stackIsEmpty st.opst then pure (.exit st) else pure (.next st) := by
        rw [reduceBody, h.top, if_pos hle]
        rfl
      rw [popAndCal_eq h] at hbody
      simp only [List.takeWhile_cons, List.dropWhile_cons, hle, decide_true, if_true,
        List.foldlM_cons]
      cases hop : applyOp P st.npst q with
      | error e =>
        rw [hop] at hbody
        exact faults_loop (hbody ▸ Faults.bind (faults_lift rfl))
      | ok npst =>
        rw [hop] at hbody
        change reduceBody P c st = if stackIsEmpty (stackPop st.opst).2 then _ else _ at hbody
        have hpop := h.pop.2
        by_cases hnil : K = []
        · subst hnil
          rw [if_pos (hpop.isEmpty_iff.mpr rfl)] at hbody
          exact ⟨_, returns_loop_exit (returns_of_eq hbody), rfl, hpop⟩
        · rw [if_neg (mt hpop.isEmpty_iff.mp hnil)] at hbody
          exact Follows.loop_next (returns_of_eq hbody) (ih hpop hnil)
    · have hbody : reduceBody P c st = pure (.exit st) := by
        rw [reduceBody, h.top, if_neg hle]
      simp only [List.takeWhile_cons, List.dropWhile_cons, hle, decide_false, Bool.false_eq_true,
        if_false]
      exact ⟨st, returns_loop_exit (returns_of_eq hbody), rfl, h⟩

/-! ### The operator branch -/

theorem pushOp_holds (h : Holds n st.opst K) (hroom : K.length < n) (c : Char) :
    ∃ st', pushOp c st = .ok st' ∧ st'.npst = st.npst ∧ Holds n st'.opst (c :: K) := by
  obtain ⟨opst, hpush, hrep⟩ := h.push hroom c
  refine ⟨{ st with opst := opst }, ?_, rfl, hrep⟩
  simp only [pushOp, hpush, bind, Except.bind, pure, Except.pure]

theorem calculateOp_follows {c : Char} {em K' : List Char} (h : Holds n st.opst K)
    (hroom : K.length < n) (hyard : yardOp P c K = some (em, K')) :
    Follows (calculateOp P c st) (em.foldlM (applyOp P) st.npst)
      fun npst st' => st'.npst = npst ∧ Holds n st'.opst K' := by
  unfold yardOp at hyard
  unfold calculateOp
  split_ifs at hyard with h0 h1 h2
  · cases hyard
    subst h0
    rw [if_pos (h.isEmpty_iff.mpr rfl)]
    obtain ⟨st', hst, hrep⟩ := pushOp_holds h hroom c
    exact ⟨st', returns_lift hst, hrep⟩
  · cases hyard
    subst h1
    rw [if_neg (mt h.isEmpty_iff.mp h0), if_pos rfl]
    obtain ⟨st', hst, hrep⟩ := pushOp_holds h hroom '('
    exact ⟨st', returns_lift hst, hrep⟩
  · unfold Table.close at hyard
    split_ifs at hyard with hmem
    cases hyard
    change '(' ∈ K at hmem
    rw [if_neg (mt h.isEmpty_iff.mp h0), if_neg h1, if_pos h2]
    refine (close_follows h hmem).map_bind fun npst st' hst => ⟨_, returns_pure _, hst.1, ?_⟩
    -- the loop stops at the open parenthesis, which the last `stack_pop` drops
    obtain ⟨L, hL⟩ := dropWhile_ne_eq_cons hmem
    have hdrop := hst.2
    rw [hL] at hdrop
    have htail : (K.dropWhile fun q => decide (q ≠ (table P).left)).tail = L := by
      show (K.dropWhile fun q => decide (q ≠ '(')).tail = L
      rw [hL]; rfl
    rw [htail]
    exact hdrop.pop.2
  · cases hyard
    rw [if_neg (mt h.isEmpty_iff.mp h0), if_neg h1, if_neg h2]
    refine (reduce_follows h h0).map_bind fun npst st' hst => ?_
    have hlen := (List.dropWhile_sublist (l := K) fun q => prio P c ≤ prio P q).length_le
    obtain ⟨st₁, hpush, hnum, hrep⟩ := pushOp_holds hst.2 (by omega) c
    exact ⟨st₁, returns_lift hpush, hnum.trans hst.1, hrep⟩

/-! ### The scan -/

variable {s : List Char}

theorem calculateBody_op {st : Scan} (hi : InScan s st.scandIndex) {c : Char} {cs : List Char}
    (htxt : s.drop st.scandIndex = c :: cs) (hc : isLegalOp c = true) :
    calculateBody P s st = calculateOp P c st.pair >>= fun pair =>
      pure (.next ⟨st.scandIndex + 1, pair⟩) := by
  rw [calculateBody, if_pos hi, htxt]
  dsimp only [sscanfC]
  rw [hi.advance, if_pos hc]
  rfl

theorem calculateBody_blank {st : Scan} (hi : InScan s st.scandIndex) {cs : List Char}
    (htxt : s.drop st.scandIndex = ' ' :: cs) :
    calculateBody P s st = pure (.next { st with scandIndex := st.scandIndex + 1 }) := by
  rw [calculateBody, if_pos hi, htxt]
  dsimp only [sscanfC]
  rw [hi.advance, if_neg (by decide), if_pos rfl]
  rfl

theorem calculateBody_other {st : Scan} (hi : InScan s st.scandIndex) {c : Char} {cs : List Char}
    (htxt : s.drop st.scandIndex = c :: cs) (hop : ¬ isLegalOp c = true) (hsp : c ≠ ' ') :
    calculateBody P s st = match sscanfD P (c :: cs) with
      | .read v n => Prog.lift (stackPush st.pair.npst v) >>= fun npst =>
          Prog.lift (advance st.scandIndex n) >>= fun i =>
            pure (.next ⟨i, { st.pair with npst := npst }⟩)
      | _ => pure (.next st) := by
  rw [calculateBody, if_pos hi, htxt]
  dsimp only [sscanfC]
  rw [if_neg hop, if_neg hsp]
  cases sscanfD P (c :: cs) <;> rfl

theorem calculateBody_num {st : Scan} (hi : InScan s st.scandIndex) {v : CInt} {n : ℕ}
    (hlex : lexeme P (s.drop st.scandIndex) = .num v n) :
    calculateBody P s st = Prog.lift (stackPush st.pair.npst v) >>= fun npst =>
      Prog.lift (advance st.scandIndex n) >>= fun i =>
        pure (.next ⟨i, { st.pair with npst := npst }⟩) := by
  have hread := lexeme_num hlex
  obtain ⟨c, cs, htxt⟩ := List.exists_cons_of_ne_nil (drop_ne_nil hi.lt_length)
  rw [htxt] at hread hlex
  obtain ⟨hop, hsp⟩ := num_head hlex
  rw [calculateBody_other hi htxt (by simp [hop]) hsp, hread]

theorem calculateBody_stuck {st : Scan} (hi : InScan s st.scandIndex)
    (hlex : lexeme P (s.drop st.scandIndex) = .stuck) :
    calculateBody P s st = pure (.next st) := by
  obtain ⟨c, cs, htxt⟩ := List.exists_cons_of_ne_nil (drop_ne_nil hi.lt_length)
  rw [htxt] at hlex
  obtain ⟨hop, hsp, hread⟩ := stuck_head hlex
  rw [calculateBody_other hi htxt (by simp [hop]) hsp]
  rcases hread with hread | hread <;> rw [hread]

theorem calculateBody_done {st : Scan} (hi : ¬ InScan s st.scandIndex) :
    calculateBody P s st = pure (.exit st.pair) := by
  rw [calculateBody, if_neg hi]

structure Scanning (s : List Char) (st : Scan) (K : List Char) : Prop where
  holds : Holds (scanLen s) st.pair.opst K
  cost : K.length ≤ st.scandIndex
  bound : st.scandIndex ≤ s.length
  size : st.pair.npst.maxSize = strLen s

theorem Scanning.start (s : List Char) : Scanning s (calculateStart s) [] :=
  ⟨holds_init _, Nat.zero_le _, Nat.zero_le _, rfl⟩

variable {st : Scan} {i j : ℕ} {es em : List Entry} {K' : List Char}

theorem Scanning.op (h : Scanning s st K) (hi : InScan s st.scandIndex) {c : Char}
    {cs ops : List Char} (htxt : s.drop st.scandIndex = c :: cs) (hc : isLegalOp c = true)
    (hyard : yardOp P c K = some (ops, K')) :
    Follows (calculateBody P s st) (ops.foldlM (applyOp P) st.pair.npst)
      fun npst r => ∃ st', r = .next st' ∧ st'.pair.npst = npst ∧
        (npst.maxSize = st.pair.npst.maxSize → Scanning s st' K') ∧
        st'.scandIndex = st.scandIndex + 1 := by
  have hcost := h.cost
  have hlt := inScan_iff.mp hi
  rw [calculateBody_op hi htxt hc]
  refine (calculateOp_follows h.holds (by omega) hyard).map_bind fun npst pair hpair =>
    ⟨_, returns_pure _, _, rfl, hpair.1, fun hsize => ⟨hpair.2, ?_, hi.lt_length, ?_⟩, rfl⟩
  · have := yardOp_length hyard
    show K'.length ≤ st.scandIndex + 1
    omega
  · rw [hpair.1, hsize, h.size]

theorem Scanning.blank (h : Scanning s st K) (hi : InScan s st.scandIndex) :
    Scanning s { st with scandIndex := st.scandIndex + 1 } K :=
  ⟨h.holds, h.cost.trans (Nat.le_succ _), hi.lt_length, h.size⟩

theorem Scanning.num (h : Scanning s st K) (hi : InScan s st.scandIndex) {v : CInt} {n : ℕ}
    (hlex : lexeme P (s.drop st.scandIndex) = .num v n) {npst : Stack CInt}
    (hpush : stackPush st.pair.npst v = .ok npst) :
    Scanning s ⟨st.scandIndex + n, { st.pair with npst := npst }⟩ K := by
  obtain ⟨-, hle⟩ := num_le_length hi.lt_length hlex
  exact ⟨h.holds, h.cost.trans (Nat.le_add_right _ _), hle,
    (stackPush_keeps hpush).1.trans h.size⟩

theorem Scanning.push_ok (h : Scanning s st K) (hi : InScan s st.scandIndex) (v : CInt) :
    ∃ npst, stackPush st.pair.npst v = .ok npst := by
  refine stackPush_ok ?_ v
  rw [h.size]
  have hlt : (st.scandIndex : ℤ) < (strLen s).val := hi
  omega

theorem foldlM_applyOp_maxSize {ops : List Char} {npst npst' : Stack CInt}
    (h : ops.foldlM (applyOp P) npst = .ok npst') : npst'.maxSize = npst.maxSize :=
  foldlM_keeps (I := fun st => st.maxSize = npst.maxSize)
    (fun _ _ _ _ hI hstep => (applyOp_maxSize hstep).trans hI) rfl h

theorem Scanning.reaches (htakes : Takes P s i es j) (h : Scanning s st K)
    (hi : st.scandIndex = i) (hyard : yardAll P es K = some (em, K')) :
    (∀ e, em.foldlM (numStep P) st.pair.npst = .error e →
      Faults (loop (calculateBody P s) st) e) ∧
    ∀ npst, em.foldlM (numStep P) st.pair.npst = .ok npst →
      ∃ k st', Iterates (calculateBody P s) k st st' ∧ st'.pair.npst = npst ∧
        Scanning s st' K' ∧ st'.scandIndex = j := by
  induction htakes generalizing st K em with
  | refl =>
    cases hyard
    refine ⟨fun e he => (by cases he), fun npst hnpst => ?_⟩
    cases hnpst
    exact ⟨0, st, .zero st, rfl, h, hi⟩
  | blank hin htxt _ ih =>
    subst hi
    have hret := returns_of_eq (calculateBody_blank (P := P) hin htxt)
    obtain ⟨hfault, hok⟩ := ih (h.blank hin) rfl hyard
    refine ⟨fun e he => faults_loop_next hret (hfault e he), fun npst hnpst => ?_⟩
    obtain ⟨k, st', hk, hst'⟩ := hok npst hnpst
    exact ⟨k + 1, st', hk.head hret, hst'⟩
  | op hin htxt hc _ ih =>
    subst hi
    obtain ⟨ops, K₁, em₂, hop, hes, rfl⟩ := yardAll_op_eq_some.mp hyard
    have hbody := h.op hin htxt hc hop
    rw [List.foldlM_append, foldlM_ops]
    cases hfold : ops.foldlM (applyOp P) st.pair.npst with
    | error e =>
      refine ⟨fun e' he => ?_, fun npst hnpst => (by cases hnpst)⟩
      cases he
      exact faults_loop (hbody.error hfold)
    | ok npst =>
      obtain ⟨_, hret, st₁, rfl, rfl, hs, hidx⟩ := hbody.ok hfold
      obtain ⟨hfault, hok⟩ := ih (hs (foldlM_applyOp_maxSize hfold)) hidx hes
      refine ⟨fun e he => faults_loop_next hret (hfault e he), fun npst hnpst => ?_⟩
      obtain ⟨k, st', hk, hst'⟩ := hok npst hnpst
      exact ⟨k + 1, st', hk.head hret, hst'⟩
  | @num i j n v es hin hlex hn _ ih =>
    subst hi
    obtain ⟨em₂, hes, rfl⟩ := yardAll_num_eq_some.mp hyard
    obtain ⟨npst₁, hpush⟩ := h.push_ok hin v
    have hret : Returns (calculateBody P s st)
        (.next ⟨st.scandIndex + n, { st.pair with npst := npst₁ }⟩) := by
      rw [calculateBody_num hin hlex]
      exact (returns_lift hpush).bind ((returns_lift (advance_ok hn)).bind (returns_pure _))
    have hstep : (Item.num v :: em₂).foldlM (numStep P) st.pair.npst =
        em₂.foldlM (numStep P) npst₁ := by
      rw [List.foldlM_cons, show numStep P st.pair.npst (.num v) = .ok npst₁ from hpush]
      rfl
    obtain ⟨hfault, hok⟩ := ih (h.num hin hlex hpush) rfl hes
    rw [hstep]
    refine ⟨fun e he => faults_loop_next hret (hfault e he), fun npst hnpst => ?_⟩
    obtain ⟨k, st', hk, hst'⟩ := hok npst hnpst
    exact ⟨k + 1, st', hk.head hret, hst'⟩

theorem Scanning.run (htakes : Takes P s i es j) (hj : ¬ InScan s j) (h : Scanning s st K)
    (hi : st.scandIndex = i) (hyard : yardAll P es K = some (em, K')) :
    Follows (loop (calculateBody P s) st) (em.foldlM (numStep P) st.pair.npst)
      fun npst pair => pair.npst = npst ∧ Holds (scanLen s) pair.opst K' := by
  obtain ⟨hfault, hok⟩ := h.reaches htakes hi hyard
  cases hfold : em.foldlM (numStep P) st.pair.npst with
  | error e => exact hfault e hfold
  | ok npst =>
    obtain ⟨k, st', hk, hnum, hs, rfl⟩ := hok npst hfold
    exact ⟨st'.pair, hk.returns_loop (returns_loop_exit (returns_of_eq (calculateBody_done hj))),
      hnum, hs.holds⟩

theorem drain_follows {n : ℕ} {st : Pair} (h : Holds n st.opst K) :
    Follows (loop (drainBody P) st) (K.foldlM (applyOp P) st.npst)
      fun npst st' => st'.npst = npst ∧ Holds n st'.opst [] := by
  induction K generalizing st with
  | nil =>
    refine ⟨st, returns_loop_exit ?_, rfl, h⟩
    rw [drainBody, if_pos (h.isEmpty_iff.mpr rfl)]
    exact returns_pure _
  | cons c K ih =>
    have hbody : drainBody P st = Prog.lift (popAndCal P st) >>= fun st => pure (.next st) := by
      rw [drainBody, if_neg (mt h.isEmpty_iff.mp (by simp))]
      rfl
    rw [popAndCal_eq h] at hbody
    rw [List.foldlM_cons]
    cases hop : applyOp P st.npst c with
    | error e =>
      rw [hop] at hbody
      exact faults_loop (hbody ▸ Faults.bind (faults_lift rfl))
    | ok npst =>
      rw [hop] at hbody
      change drainBody P st = pure (.next ⟨(stackPop st.opst).2, npst⟩) at hbody
      exact Follows.loop_next (returns_of_eq hbody) (ih h.pop.2)

/-- Scan and drain together run the postfix sequence of the text on the number stack. -/
theorem evaluate_follows {items : List Entry} (hscan : Scans P s es j)
    (hpost : postfixOf P es = some items) :
    Follows (evaluate P s) (items.foldlM (numStep P) (stackInit (strLen s)))
      fun npst pair => pair.npst = npst ∧ Holds (scanLen s) pair.opst [] := by
  simp only [postfixOf, Option.map_eq_some_iff, Prod.exists] at hpost
  obtain ⟨em, K, hyard, rfl⟩ := hpost
  rw [List.foldlM_append]
  refine ((Scanning.start s).run hscan.takes hscan.ends rfl hyard).bind ?_
  rintro npst pair ⟨rfl, hK⟩
  rw [foldlM_ops]
  exact drain_follows hK

end GoodCommand.Calculator.DoubleStack
