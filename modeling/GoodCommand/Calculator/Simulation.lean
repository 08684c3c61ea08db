import GoodCommand.Calculator.DoubleStack
import GoodCommand.Calculator.PostfixText

/-! The number stack of `double_stack_224.c` against the values that `cal_bstr` keeps as text: the
same entries leave the same values, as long as no empty stack is popped. -/

namespace GoodCommand.Calculator
open Fuel Shunting StringStack

variable {P : Platform} {s : List Char}

/-! ### One entry -/

theorem doOneCal_eq (P : Platform) (op : Char) (a1 a2 : CInt) :
    DoubleStack.doOneCal P op a1 a2 = calOp P op a1 a2 := rfl

namespace DoubleStack

variable {n : ℕ} {npst npst' : Stack CInt} {V V' : List CInt}

theorem applyOp_cons {c : Char} {a1 a2 : CInt} (h : Holds n npst (a1 :: a2 :: V)) :
    ∃ rest, Holds n rest V ∧
      applyOp P npst c = (calOp P c a1 a2 >>= fun r => stackPush rest r) := by
  obtain ⟨h1, hpop⟩ := h.pop
  obtain ⟨h2, hpop2⟩ := hpop.pop
  refine ⟨_, hpop2, ?_⟩
  simp only [applyOp, h1, h2, doOneCal_eq]

theorem numStep_of_calStep {e : Entry} (h : Holds n npst V)
    (hroom : V.length + numbers [e] ≤ n) (hstep : calStep P V e = .ok V') :
    ∃ npst', numStep P npst e = .ok npst' ∧ Holds n npst' V' := by
  cases e with
  | num v =>
    cases hstep
    exact h.push (by simpa using hroom) v
  | op c =>
    obtain ⟨a1, a2, V, r, rfl, hop, rfl⟩ := calStep_op_ok hstep
    obtain ⟨rest, hrest, happ⟩ := applyOp_cons (P := P) (c := c) h
    rw [hop] at happ
    have hlen := h.length_le
    simp only [List.length_cons] at hlen
    obtain ⟨npst', hpush, hholds⟩ := hrest.push (by omega) r
    exact ⟨npst', happ.trans hpush, hholds⟩

theorem applyOp_pops {c : Char} (h : applyOp P npst c = .ok npst') :
    npst.emptyPops ≤ npst'.emptyPops ∧
      (npst.emptyPops = npst'.emptyPops → ∃ a1 a2 V, npst.items = a1 :: a2 :: V) := by
  have hpop : ∀ st : Stack CInt, st.emptyPops ≤ (stackPop st).2.emptyPops := by
    intro st
    cases hst : st.items with
    | nil => exact (stackPop_nil hst).2.2.2.1 ▸ Nat.le_succ _
    | cons e es => exact (stackPop_cons hst).2.2.2.1.ge
  obtain ⟨r, -, hpush⟩ := applyOp_ok h
  rw [(stackPush_keeps hpush).2]
  refine ⟨(hpop _).trans (hpop _), fun heq => ?_⟩
  cases hst : npst.items with
  | nil =>
    have h1 := (stackPop_nil hst).2.2.2.1
    have h2 := hpop (stackPop npst).2
    omega
  | cons a1 rest =>
    obtain ⟨-, hitems, -, h1, -⟩ := stackPop_cons hst
    cases rest with
    | nil =>
      have h2 := (stackPop_nil hitems).2.2.2.1
      omega
    | cons a2 V => exact ⟨a1, a2, V, rfl⟩

theorem numStep_pops_le {e : Entry} (h : numStep P npst e = .ok npst') :
    npst.emptyPops ≤ npst'.emptyPops := by
  cases e with
  | num v => exact (stackPush_keeps h).2.ge
  | op c => exact (applyOp_pops h).1

theorem calStep_of_numStep {e : Entry} (h : Holds n npst V) (hroom : V.length + numbers [e] ≤ n)
    (hstep : numStep P npst e = .ok npst') (hpops : npst'.emptyPops = 0) :
    ∃ V', calStep P V e = .ok V' ∧ Holds n npst' V' := by
  cases e with
  | num v =>
    obtain ⟨npst₁, hpush, hholds⟩ := h.push (by simpa using hroom) v
    cases hpush.symm.trans hstep
    exact ⟨_, rfl, hholds⟩
  | op c =>
    obtain ⟨a1, a2, rest, hitems⟩ := (applyOp_pops hstep).2 (h.pops.trans hpops.symm)
    obtain rfl := h.items_eq.symm.trans hitems
    obtain ⟨under, hunder, happ⟩ := applyOp_cons (P := P) (c := c) h
    change applyOp P npst c = _ at hstep
    simp only [calStep]
    cases hop : calOp P c a1 a2 with
    | error e => rw [happ, hop] at hstep; cases hstep
    | ok r =>
      have hlen := h.length_le
      simp only [List.length_cons] at hlen
      obtain ⟨npst₁, hpush, hholds⟩ := hunder.push (by omega) r
      rw [happ, hop] at hstep
      cases hpush.symm.trans hstep
      exact ⟨_, rfl, hholds⟩

/-! ### Runs of entries -/

theorem numRun_of_calRun {items : List Entry} (h : Holds n npst V)
    (hroom : V.length + numbers items ≤ n) (hrun : items.foldlM (calStep P) V = .ok V') :
    ∃ npst', items.foldlM (numStep P) npst = .ok npst' ∧ Holds n npst' V' := by
  induction items generalizing npst V with
  | nil =>
    cases hrun
    exact ⟨npst, rfl, h⟩
  | cons e items ih =>
    obtain ⟨V₁, hstep, hrest⟩ := foldlM_cons_ok hrun
    have hsum : numbers (e :: items) = numbers [e] + numbers items := numbers_append [e] items
    have hone : numbers [e] ≤ 1 := numbers_le_length [e]
    have hlen := calStep_length hstep
    obtain ⟨npst₁, hnum, hholds⟩ := numStep_of_calStep h (by omega) hstep
    obtain ⟨npst', hrun', hholds'⟩ := ih hholds (by omega) hrest
    exact ⟨npst', by rw [List.foldlM_cons, hnum]; exact hrun', hholds'⟩

theorem numRun_pops_le {items : List Entry} (h : items.foldlM (numStep P) npst = .ok npst') :
    npst.emptyPops ≤ npst'.emptyPops := by
  induction items generalizing npst with
  | nil => cases h; exact le_rfl
  | cons e items ih =>
    obtain ⟨npst₁, hstep, hrest⟩ := foldlM_cons_ok h
    exact (numStep_pops_le hstep).trans (ih hrest)

theorem calRun_of_numRun {items : List Entry} (h : Holds n npst V)
    (hroom : V.length + numbers items ≤ n) (hrun : items.foldlM (numStep P) npst = .ok npst')
    (hpops : npst'.emptyPops = 0) :
    ∃ V', items.foldlM (calStep P) V = .ok V' ∧ Holds n npst' V' := by
  induction items generalizing npst V with
  | nil =>
    cases hrun
    exact ⟨V, rfl, h⟩
  | cons e items ih =>
    obtain ⟨npst₁, hstep, hrest⟩ := foldlM_cons_ok hrun
    have hsum : numbers (e :: items) = numbers [e] + numbers items := numbers_append [e] items
    have hone : numbers [e] ≤ 1 := numbers_le_length [e]
    have hle := numRun_pops_le hrest
    obtain ⟨V₁, hcal, hholds⟩ := calStep_of_numStep h (by omega) hstep (by omega)
    have hlen := calStep_length hcal
    obtain ⟨V', hrun', hholds'⟩ := ih hholds (by omega) hrest
    exact ⟨V', by rw [List.foldlM_cons, hcal]; exact hrun', hholds'⟩

variable {es items : List Entry} {j : ℕ}

theorem numbers_le_of_scans (hscan : Scans P s es j) (hpost : postfixOf P es = some items) :
    ([] : List CInt).length + numbers items ≤ scanLen s := by
  have hle := hscan.takes.numbers_le
  rw [Nat.sub_zero] at hle
  rw [List.length_nil, Nat.zero_add, numbers, values_postfixOf hpost]
  exact hle

/-- A run of the postfix sequence that `cal_bstr` completes is the run of `calculate`. -/
theorem evaluate_of_calRun (hscan : Scans P s es j) (hpost : postfixOf P es = some items)
    (hrun : items.foldlM (calStep P) [] = .ok V) :
    ∃ pair, Returns (evaluate P s) pair ∧ Holds (scanLen s) pair.npst V ∧
      Holds (scanLen s) pair.opst [] := by
  obtain ⟨npst, hnum, hholds⟩ :=
    numRun_of_calRun (holds_init (strLen s)) (numbers_le_of_scans hscan hpost) hrun
  obtain ⟨pair, hret, rfl, hops⟩ := (evaluate_follows hscan hpost).ok hnum
  exact ⟨pair, hret, hholds, hops⟩

theorem calculate_of_evaluate {pair : Pair} (hret : Returns (evaluate P s) pair)
    (hops : 0 < pair.opst.maxSize.val) (hnums : 0 < pair.npst.maxSize.val) :
    Returns (calculate P s) ((stackPop pair.npst).1, ⟨pair.opst, (stackPop pair.npst).2⟩) := by
  have hfree : stackFree pair.opst = .ok () := if_pos hops
  have hfree' : stackFree (stackPop pair.npst).2 = .ok () :=
    if_pos (by rw [stackPop_maxSize]; exact hnums)
  exact hret.bind ((returns_lift hfree).bind ((returns_lift hfree').bind (returns_pure _)))

theorem Holds.maxSize_pos {α : Type} {st : Stack α} {T : List α} (h : Holds n st T) (hn : 0 < n) :
    0 < st.maxSize.val := by
  have := h.maxSize_eq
  omega

theorem calculate_returns_iff (hscan : Scans P s es j) (hpost : postfixOf P es = some items)
    (hs : 0 < (strLen s).val) {v : CInt} :
    (∃ st, Returns (calculate P s) (v, st)) ↔
      ∃ npst, items.foldlM (numStep P) (stackInit (strLen s)) = .ok npst ∧
        (stackPop npst).1 = v := by
  have hrun : ∀ npst, items.foldlM (numStep P) (stackInit (strLen s)) = .ok npst →
      ∃ st, Returns (calculate P s) ((stackPop npst).1, st) := by
    intro npst hfold
    obtain ⟨pair, hret, rfl, hops⟩ := (evaluate_follows hscan hpost).ok hfold
    have hmax : pair.npst.maxSize = strLen s := foldlM_keeps (I := fun st => st.maxSize = strLen s)
      (fun st e st' _ hI hstep => (numStep_maxSize hstep).trans hI) rfl hfold
    have hpos : 0 < scanLen s := inScan_iff.mp hs
    exact ⟨_, calculate_of_evaluate hret (hops.maxSize_pos hpos) (hmax ▸ hs)⟩
  constructor
  · rintro ⟨st, hret⟩
    cases hfold : items.foldlM (numStep P) (stackInit (strLen s)) with
    | error e =>
      exact absurd (Faults.bind ((evaluate_follows hscan hpost).error hfold)) hret.not_faults
    | ok npst =>
      obtain ⟨st', hret'⟩ := hrun npst hfold
      cases hret.unique hret'
      exact ⟨npst, rfl, rfl⟩
  · rintro ⟨npst, hfold, rfl⟩
    exact hrun npst hfold

/-- Where no character is counted, `free` is given a pointer that `stack_init` never set. -/
theorem calculate_faults_of_strLen (P : Platform) (hs : (strLen s).val ≤ 0) :
    Faults (calculate P s) .unsetPointer := by
  have hdone : ¬ InScan s (calculateStart s).scandIndex := by
    show ¬ ((0 : ℕ) : ℤ) < (strLen s).val
    omega
  have hscan : Returns (loop (calculateBody P s) (calculateStart s)) (calculateStart s).pair :=
    returns_loop_exit (returns_of_eq (calculateBody_done hdone))
  have hdrain : Returns (loop (drainBody P) (calculateStart s).pair) (calculateStart s).pair :=
    returns_loop_exit (returns_of_eq (by rw [drainBody]; rfl))
  have hfree : stackFree (calculateStart s).pair.opst = .error .unsetPointer :=
    if_neg (not_lt.mpr hs)
  exact (hscan.bind hdrain).bind_faults (Faults.bind (faults_lift hfree))

end DoubleStack

end GoodCommand.Calculator
