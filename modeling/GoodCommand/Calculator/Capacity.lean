import GoodCommand.Calculator.Runs

/-! The two stacks of `double_stack_224.c` never fill up, whatever text is evaluated. -/

namespace GoodCommand.Calculator.DoubleStack
open Fuel

variable {P : Platform} {s : List Char} {α : Type} {n i : ℕ} {st : Pair}

structure Roomy (n i : ℕ) (st : Stack α) : Prop where
  size : st.maxSize.val.toNat = n
  length_le : st.items.length ≤ i
  pushes : st.fullPushes = 0

theorem roomy_init (size : CInt) : Roomy size.val.toNat 0 (stackInit size : Stack α) :=
  ⟨rfl, le_rfl, rfl⟩

theorem Roomy.mono {st : Stack α} {j : ℕ} (h : Roomy n i st) (hij : i ≤ j) : Roomy n j st :=
  ⟨h.size, h.length_le.trans hij, h.pushes⟩

theorem Roomy.push {st st' : Stack α} {e : α} (h : Roomy n i st) (hi : i < n)
    (hpush : stackPush st e = .ok st') : Roomy n (i + 1) st' := by
  have hlen := h.length_le
  have hsize := h.size
  rw [stackPush_of_lt (by omega) e] at hpush
  cases hpush
  exact ⟨hsize, Nat.succ_le_succ hlen, h.pushes⟩

theorem Roomy.pop [Cell α] {st : Stack α} (h : Roomy n i st) : Roomy n (i - 1) (stackPop st).2 := by
  have hlen := h.length_le
  obtain ⟨hitems, hpushes⟩ := stackPop_items st
  refine ⟨by rw [stackPop_maxSize]; exact h.size, ?_, hpushes.trans h.pushes⟩
  rw [hitems, List.length_tail]
  omega

structure Bounded (n i : ℕ) (st : Pair) : Prop where
  ops : Roomy n i st.opst
  nums : Roomy n i st.npst

theorem popAndCal_ok {st' : Pair} (h : popAndCal P st = .ok st') : ∃ r npst,
    stackPush (stackPop (stackPop st.npst).2).2 r = .ok npst ∧
      st' = ⟨(stackPop st.opst).2, npst⟩ := by
  simp only [popAndCal] at h
  obtain ⟨r, -, h⟩ := bind_ok h
  obtain ⟨npst, hpush, h⟩ := bind_ok h
  cases h
  exact ⟨r, npst, hpush, rfl⟩

theorem Bounded.popAndCal {st' : Pair} (h : Bounded n i st) (hi : 0 < i) (hn : i ≤ n)
    (hst : popAndCal P st = .ok st') : Bounded n i st' := by
  obtain ⟨r, npst, hpush, rfl⟩ := popAndCal_ok hst
  refine ⟨h.ops.pop.mono (Nat.sub_le i 1), ?_⟩
  exact (h.nums.pop.pop.push (by omega) hpush).mono (by omega)

theorem Bounded.closeBody {r : Ctl Pair Pair} (h : Bounded n i st) (hi : 0 < i) (hn : i ≤ n)
    (hret : Returns (closeBody P st) r) : Bounded n i r.state := by
  unfold DoubleStack.closeBody at hret
  split at hret
  · obtain ⟨st', hst, hret⟩ := (steady_lift _).of_returns_bind hret
    cases of_returns_pure hret
    exact h.popAndCal hi hn (of_returns_lift hst)
  · cases of_returns_pure hret
    exact h

theorem Bounded.reduceBody {c : Char} {r : Ctl Pair Pair} (h : Bounded n i st) (hi : 0 < i)
    (hn : i ≤ n) (hret : Returns (reduceBody P c st) r) : Bounded n i r.state := by
  unfold DoubleStack.reduceBody at hret
  split at hret
  · obtain ⟨st', hst, hret⟩ := (steady_lift _).of_returns_bind hret
    have hpop := h.popAndCal hi hn (of_returns_lift hst)
    split at hret
    · cases of_returns_pure hret
      exact hpop
    · cases of_returns_pure hret
      exact hpop
  · cases of_returns_pure hret
    exact h

theorem Bounded.pos (h : Bounded n i st) (hne : ¬ stackIsEmpty st.opst = true) : 0 < i := by
  rw [stackIsEmpty, List.isEmpty_iff] at hne
  exact lt_of_lt_of_le (List.length_pos_of_ne_nil hne) h.ops.length_le

theorem Bounded.drainBody {r : Ctl Pair Pair} (h : Bounded n i st) (hn : i ≤ n)
    (hret : Returns (drainBody P st) r) : Bounded n i r.state := by
  unfold DoubleStack.drainBody at hret
  split at hret
  · cases of_returns_pure hret
    exact h
  · next hne =>
    obtain ⟨st', hst, hret⟩ := (steady_lift _).of_returns_bind hret
    cases of_returns_pure hret
    exact h.popAndCal (h.pos hne) hn (of_returns_lift hst)

theorem Bounded.pushOp {c : Char} {st' : Pair} (h : Bounded n i st) (hi : i < n)
    (hst : pushOp c st = .ok st') : Bounded n (i + 1) st' := by
  obtain ⟨opst, hpush, hst⟩ := bind_ok hst
  cases hst
  exact ⟨h.ops.push hi hpush, h.nums.mono (Nat.le_succ i)⟩

theorem Bounded.calculateOp {c : Char} {st' : Pair} (h : Bounded n i st) (hi : i < n)
    (hret : Returns (calculateOp P c st) st') : Bounded n (i + 1) st' := by
  unfold DoubleStack.calculateOp at hret
  split_ifs at hret with h0 h1 h2
  · exact h.pushOp hi (of_returns_lift hret)
  · exact h.pushOp hi (of_returns_lift hret)
  · obtain ⟨st₁, hloop, hret⟩ := (steady_loop (steady_closeBody P) st).of_returns_bind hret
    have hkeep : Bounded n i st₁ := loop_keeps (steady_closeBody P)
      (fun _ _ hI hbody => hI.closeBody (h.pos h0) hi.le hbody) h hloop
    cases of_returns_pure hret
    -- the `(` is popped, and nothing is pushed
    exact ⟨hkeep.ops.pop.mono (by omega), hkeep.nums.mono (Nat.le_succ i)⟩
  · obtain ⟨st₁, hloop, hret⟩ := (steady_loop (steady_reduceBody P c) st).of_returns_bind hret
    have hkeep : Bounded n i st₁ := loop_keeps (steady_reduceBody P c)
      (fun _ _ hI hbody => hI.reduceBody (h.pos h0) hi.le hbody) h hloop
    exact hkeep.pushOp hi (of_returns_lift hret)

/-! ### The scan -/

def ScanBounded (s : List Char) (st : Scan) : Prop :=
  Bounded (scanLen s) (min st.scandIndex (scanLen s)) st.pair

theorem ScanBounded.next {st st' : Scan} (h : ScanBounded s st)
    (hret : Returns (calculateBody P s st) (.next st')) : ScanBounded s st' := by
  obtain ⟨hi, -⟩ := calculateBody_next hret
  have hlt := inScan_iff.mp hi
  unfold ScanBounded at h ⊢
  rw [min_eq_left hlt.le] at h
  rcases lexeme_cases P (drop_ne_nil hi.lt_length) with
    ⟨c, cs, htxt, hc⟩ | ⟨cs, htxt⟩ | ⟨v, k, hlex⟩ | hlex
  · rw [calculateBody_op hi htxt hc] at hret
    obtain ⟨pair, hop, hret⟩ := (steady_calculateOp P _ _).of_returns_bind hret
    cases of_returns_pure hret
    rw [min_eq_left hlt]
    exact h.calculateOp hlt hop
  · rw [calculateBody_blank hi htxt] at hret
    cases of_returns_pure hret
    rw [min_eq_left hlt]
    exact ⟨h.ops.mono (Nat.le_succ _), h.nums.mono (Nat.le_succ _)⟩
  · -- a number takes one cell and at least one character
    obtain ⟨hpos, -⟩ := num_le_length hi.lt_length hlex
    rw [calculateBody_num hi hlex] at hret
    obtain ⟨npst, hpush, hret⟩ := (steady_lift _).of_returns_bind hret
    obtain ⟨j, hadv, hret⟩ := (steady_lift _).of_returns_bind hret
    cases of_returns_pure hret
    obtain ⟨rfl, -⟩ := advance_eq_ok (of_returns_lift hadv)
    have hnums := h.nums.push hlt (of_returns_lift hpush)
    have hle : st.scandIndex + 1 ≤ min (st.scandIndex + k) (scanLen s) :=
      le_min (Nat.add_le_add_left hpos _) hlt
    exact ⟨h.ops.mono ((Nat.le_succ _).trans hle), hnums.mono hle⟩
  · rw [calculateBody_stuck hi hlex] at hret
    cases of_returns_pure hret
    rw [min_eq_left hlt.le]
    exact h

theorem ScanBounded.start (s : List Char) : ScanBounded s (calculateStart s) := by
  unfold ScanBounded
  rw [show (calculateStart s).scandIndex = 0 from rfl, Nat.zero_min]
  exact ⟨roomy_init _, roomy_init _⟩

theorem Bounded.widen (h : Bounded n (min i n) st) : Bounded n n st :=
  ⟨h.ops.mono (min_le_right _ _), h.nums.mono (min_le_right _ _)⟩

theorem ScanBounded.exit {st : Scan} {r : Pair} (h : ScanBounded s st)
    (hret : Returns (calculateBody P s st) (.exit r)) : Bounded (scanLen s) (scanLen s) r := by
  have hend := calculateBody_exit hret
  rw [calculateBody_done hend] at hret
  cases of_returns_pure hret
  exact .widen h

theorem bounded_of_scan {r : Pair}
    (hret : Returns (loop (calculateBody P s) (calculateStart s)) r) :
    Bounded (scanLen s) (scanLen s) r :=
  of_returns_loop (steady_calculateBody P s) (fun _ _ h => h.next) (fun _ _ h => h.exit)
    (ScanBounded.start s) hret

/-! ### All states -/

/-- `calculate(s)` comes through this state: at a turn of the scan, in one of the loops that an
operator runs, in the loop after the scan, or at the end. -/
inductive Reached (P : Platform) (s : List Char) : Pair → Prop
  | scan {k : ℕ} {st : Scan} : Iterates (calculateBody P s) k (calculateStart s) st →
      Reached P s st.pair
  | close {k j : ℕ} {st : Scan} {pair : Pair} :
      Iterates (calculateBody P s) k (calculateStart s) st → InScan s st.scandIndex →
      s[st.scandIndex]? = some ')' → stackIsEmpty st.pair.opst = false →
      Iterates (closeBody P) j st.pair pair → Reached P s pair
  | reduce {k j : ℕ} {st : Scan} {c : Char} {pair : Pair} :
      Iterates (calculateBody P s) k (calculateStart s) st → InScan s st.scandIndex →
      s[st.scandIndex]? = some c → isLegalOp c = true → stackIsEmpty st.pair.opst = false →
      c ≠ '(' → c ≠ ')' → Iterates (reduceBody P c) j st.pair pair → Reached P s pair
  | drain {j : ℕ} {st pair : Pair} : Returns (loop (calculateBody P s) (calculateStart s)) st →
      Iterates (drainBody P) j st pair → Reached P s pair
  | final {v : CInt} {pair : Pair} : Returns (calculate P s) (v, pair) → Reached P s pair

theorem bounded_of_reached {pair : Pair} (h : Reached P s pair) :
    Bounded (scanLen s) (scanLen s) pair := by
  have hscan : ∀ {k st}, Iterates (calculateBody P s) k (calculateStart s) st → ScanBounded s st :=
    fun hk => hk.keeps (fun _ _ h hret => h.next hret) (ScanBounded.start s)
  have hle : ∀ st : Scan, min st.scandIndex (scanLen s) ≤ scanLen s := fun st => min_le_right _ _
  cases h with
  | scan hk => exact .widen (hscan hk)
  | close hk _ _ hne hj =>
    have hst : Bounded _ _ _ := hscan hk
    have hpos := hst.pos (by rw [hne]; simp)
    exact .widen (hj.keeps (fun _ _ h hret => h.closeBody hpos (hle _) hret) hst)
  | reduce hk _ _ _ hne _ _ hj =>
    have hst : Bounded _ _ _ := hscan hk
    have hpos := hst.pos (by rw [hne]; simp)
    exact .widen (hj.keeps (fun _ _ h hret => h.reduceBody hpos (hle _) hret) hst)
  | drain hret hj =>
    exact hj.keeps (fun _ _ h hbody => h.drainBody le_rfl hbody) (bounded_of_scan hret)
  | final hret =>
    obtain ⟨st, heval, hret⟩ := (steady_evaluate P s).of_returns_bind hret
    obtain ⟨st₁, hscanned, heval⟩ :=
      (steady_loop (steady_calculateBody P s) _).of_returns_bind heval
    have hst : Bounded (scanLen s) (scanLen s) st := loop_keeps (steady_drainBody P)
      (fun _ _ h hbody => h.drainBody le_rfl hbody) (bounded_of_scan hscanned) heval
    obtain ⟨-, -, hret⟩ := (steady_lift _).of_returns_bind hret
    obtain ⟨-, -, hret⟩ := (steady_lift _).of_returns_bind hret
    cases of_returns_pure hret
    exact ⟨hst.ops, hst.nums.pop.mono (Nat.sub_le _ _)⟩

/-- No value is ever pushed on a full stack. -/
theorem no_push_on_full_stack (P : Platform) (s : List Char) {pair : Pair} (h : Reached P s pair) :
    pair.opst.fullPushes = 0 ∧ pair.npst.fullPushes = 0 :=
  ⟨(bounded_of_reached h).ops.pushes, (bounded_of_reached h).nums.pushes⟩

theorem no_push_on_full_stack_sample :
    ∃ pair, Reached x86 ['+', '-'] pair ∧ pair.opst.fullPushes = 0 ∧ pair.npst.fullPushes = 0 := by
  have hret : Returns (calculate x86 ['+', '-']) (CInt.zero, _) :=
    (steady_calculate x86 _).returns (n := 10) rfl
  exact ⟨_, .final hret, no_push_on_full_stack x86 _ (.final hret)⟩

end GoodCommand.Calculator.DoubleStack
