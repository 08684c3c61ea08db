import GoodCommand.Calculator.StringStack

/-! The string stack of `224.c` under arbitrary calls of `stack_push` and `stack_pop`: which entries
are written. -/

namespace GoodCommand.Calculator.StringStack

inductive Call where
  | push (isNum : CInt) (numOp : List Char)
  | pop
  deriving DecidableEq

def Call.run (g : Globals) : Call → Except Fault Globals
  | .push isNum numOp => stackPush g isNum numOp
  | .pop => .ok (stackPop g).2

/-- How far a call moves `it` when it reports no overflow. -/
def Call.move : Call → ℤ
  | .push _ _ => 1
  | .pop => -1

/-- The text has room in `num_op`. -/
def Call.Fits : Call → Prop
  | .push _ numOp => numOp.length < numMaxLen
  | .pop => True

/-- The pushes among the calls less the pops. -/
def depth (calls : List Call) : ℤ := (calls.map Call.move).sum

/-- `stack_pop` is called only when `is_empty()` is false. -/
def Guarded (g : Globals) : List Call → Prop
  | [] => True
  | c :: calls => (c = .pop → isEmpty g = false) ∧ ∀ g', c.run g = .ok g' → Guarded g' calls

/-- A push writes an entry with index in `0..len`, or reports an overflow and changes nothing. -/
def Allowed (len : CInt) (g g' : Globals) : Call → Prop
  | .push isNum numOp =>
    (g'.it.val = g.it.val + 1 ∧ 0 ≤ g'.it.val ∧ g'.it ≤ len ∧
      g' = { g with it := g'.it, stack := g.stack.set g'.it.val.toNat ⟨isNum, numOp⟩ }) ∨
    g' = { g with overflows := g.overflows + 1 }
  | .pop => True

/-- Every push is allowed, and `-1 <= it <= len` throughout. -/
def StackInBounds (len : CInt) (g : Globals) : List Call → Prop
  | [] => -1 ≤ g.it.val ∧ g.it ≤ len
  | c :: calls => (-1 ≤ g.it.val ∧ g.it ≤ len) ∧
      ∃ g', c.run g = .ok g' ∧ Allowed len g g' c ∧ StackInBounds len g' calls

structure Room (len : CInt) (g : Globals) : Prop where
  allocated : len.val < intMax
  stackLen : g.stackLen = len
  entries : (g.stack.length : ℤ) = len.val + 1
  lower : -1 ≤ g.it.val
  upper : g.it.val ≤ len.val

section
variable {len : CInt} {g : Globals} {calls : List Call}

theorem room_init (hlen : 0 ≤ len.val) (hlt : len.val < intMax) (hit : g.it.val = -1) :
    ∃ g₀, stackInit g len = .ok g₀ ∧ Room len g₀ ∧ g₀.it = g.it := by
  have heq : len.val = (len.val.toNat : ℤ) := (Int.toNat_of_nonneg hlen).symm
  refine ⟨_, stackInit_eq g heq hlt, ⟨hlt, rfl, ?_, ?_, ?_⟩, rfl⟩
  · simp only [List.length_replicate]
    omega
  · exact hit.ge
  · show g.it.val ≤ len.val
    omega

/-- For `len = INT_MAX` the size wraps, `malloc` fails, and `memset` writes to the null pointer. -/
theorem stackInit_intMax (hlen : ¬ len.val < intMax) (g : Globals) :
    stackInit g len = .error .nullPointer := by
  have hmax : len.val = intMax := le_antisymm len.property.2 (not_lt.mp hlen)
  have hsize : (CInt.wrap (len.val + 1)).val < 0 := by
    rw [hmax]
    decide
  rw [stackInit, zeroed_neg _ hsize]
  rfl

theorem Room.next (h : Room len g) : (CInt.wrap (g.it.val + 1)).val = g.it.val + 1 := by
  have hlow := h.lower
  have hup := h.upper
  have hlt := h.allocated
  exact CInt.wrap_of_fits ⟨by unfold intMin; omega, by omega⟩

theorem Room.push (h : Room len g) (hlt : g.it.val < len.val) (isNum : CInt) {numOp : List Char}
    (hfits : numOp.length < numMaxLen) :
    ∃ g', Call.run g (.push isNum numOp) = .ok g' ∧ Allowed len g g' (.push isNum numOp) ∧
      Room len g' ∧ g'.it.val = g.it.val + 1 := by
  have hle : g.it ≤ g.stackLen := h.stackLen ▸ h.upper
  have hlow := h.lower
  have hnext := h.next
  have hentry : 0 ≤ (CInt.wrap (g.it.val + 1)).val ∧
      (CInt.wrap (g.it.val + 1)).val.toNat < g.stack.length := by
    have := h.entries
    omega
  have hup : (CInt.wrap (g.it.val + 1)).val ≤ len.val := by omega
  refine ⟨⟨g.stack.set (CInt.wrap (g.it.val + 1)).val.toNat ⟨isNum, numOp⟩,
      CInt.wrap (g.it.val + 1), g.stackLen, g.overflows⟩, ?_,
    .inl ⟨hnext, hentry.1, hup, rfl⟩, ⟨h.allocated, h.stackLen, ?_, ?_, hup⟩, hnext⟩
  · simp only [Call.run, stackPush, hle, hentry, hfits, if_true, and_self]
  · simpa using h.entries
  · show -1 ≤ (CInt.wrap (g.it.val + 1)).val
    omega

/-- On a full stack the guard still lets the push through, to the entry behind the last one. -/
theorem Room.push_full (h : Room len g) (hfull : g.it.val = len.val) (isNum : CInt)
    (numOp : List Char) :
    Call.run g (.push isNum numOp) = .error (.stackIndex (len.val + 1)) := by
  have hle : g.it ≤ g.stackLen := h.stackLen ▸ h.upper
  have hnext := h.next
  have hentry : ¬ (0 ≤ (CInt.wrap (g.it.val + 1)).val ∧
      (CInt.wrap (g.it.val + 1)).val.toNat < g.stack.length) := by
    have := h.entries
    omega
  simp only [Call.run, stackPush, if_pos hle, if_neg hentry]
  rw [hnext, hfull]

theorem Room.push_long (h : Room len g) (hlt : g.it.val < len.val) (isNum : CInt)
    {numOp : List Char} (hlong : ¬ numOp.length < numMaxLen) :
    Call.run g (.push isNum numOp) = .error (.numOpIndex numOp.length) := by
  have hle : g.it ≤ g.stackLen := h.stackLen ▸ h.upper
  have hlow := h.lower
  have hnext := h.next
  have hentry : 0 ≤ (CInt.wrap (g.it.val + 1)).val ∧
      (CInt.wrap (g.it.val + 1)).val.toNat < g.stack.length := by
    have := h.entries
    omega
  simp only [Call.run, stackPush, if_pos hle, if_pos hentry, if_neg hlong]

theorem Room.pop (h : Room len g) (hne : isEmpty g = false) :
    Room len (stackPop g).2 ∧ (stackPop g).2.it.val = g.it.val - 1 := by
  have hit : g.it.val ≠ -1 := by simpa [isEmpty] using hne
  have hlow := h.lower
  have hup := h.upper
  have hprev := stackPop_val hlow
  exact ⟨⟨h.allocated, h.stackLen, h.entries, by omega, by omega⟩, hprev⟩

theorem forall_prefix_cons_iff {c : Call} {i n : ℤ} (hi : i ≤ n) :
    (∀ p, p <+: c :: calls → i + depth p ≤ n) ↔
      ∀ p, p <+: calls → i + c.move + depth p ≤ n := by
  constructor
  · intro h p hp
    have hcons := h (c :: p) (List.cons_prefix_cons.mpr ⟨rfl, hp⟩)
    simp only [depth, List.map_cons, List.sum_cons] at hcons ⊢
    omega
  · intro h p hp
    cases p with
    | nil => simpa [depth] using hi
    | cons d p =>
      obtain ⟨rfl, htail⟩ := List.cons_prefix_cons.mp hp
      have hdepth := h p htail
      simp only [depth, List.map_cons, List.sum_cons] at hdepth ⊢
      omega

theorem Room.inBounds_iff (h : Room len g) (hg : Guarded g calls) :
    StackInBounds len g calls ↔
      (∀ p, p <+: calls → g.it.val + depth p ≤ len.val) ∧ ∀ c ∈ calls, c.Fits := by
  induction calls generalizing g with
  | nil =>
    have hup : g.it ≤ len := h.upper
    simp [StackInBounds, depth, h.lower, h.upper, hup]
  | cons c calls ih =>
    obtain ⟨hpop, hrest⟩ := hg
    rw [forall_prefix_cons_iff h.upper, List.forall_mem_cons]
    -- without a report `it` follows the depth, so the calls after `c` decide
    have hstep : ∀ g', c.run g = .ok g' → Allowed len g g' c → Room len g' →
        g'.it.val = g.it.val + c.move → c.Fits →
        (StackInBounds len g (c :: calls) ↔
          (∀ p, p <+: calls → g.it.val + c.move + depth p ≤ len.val) ∧
            c.Fits ∧ ∀ c ∈ calls, c.Fits) := by
      intro g' hrun hallowed hroom hit hfits
      have hcalls := ih hroom (hrest g' hrun)
      rw [hit] at hcalls
      constructor
      · rintro ⟨-, g'', hrun', -, hbounds⟩
        cases hrun.symm.trans hrun'
        exact ⟨(hcalls.mp hbounds).1, hfits, (hcalls.mp hbounds).2⟩
      · exact fun hall => ⟨⟨h.lower, h.upper⟩, g', hrun, hallowed, hcalls.mpr ⟨hall.1, hall.2.2⟩⟩
    cases c with
    | pop =>
      obtain ⟨hroom, hit⟩ := h.pop (hpop rfl)
      exact hstep _ rfl trivial hroom hit trivial
    | push isNum numOp =>
      by_cases hlt : g.it.val < len.val
      · by_cases hfits : numOp.length < numMaxLen
        · obtain ⟨g', hrun, hallowed, hroom, hit⟩ := h.push hlt isNum hfits
          exact hstep g' hrun hallowed hroom hit hfits
        · constructor
          · rintro ⟨-, g', hrun, -⟩
            cases (h.push_long hlt isNum hfits).symm.trans hrun
          · exact fun hall => absurd hall.2.1 hfits
      · have hfull : g.it.val = len.val := le_antisymm h.upper (not_lt.mp hlt)
        constructor
        · rintro ⟨-, g', hrun, -⟩
          cases (h.push_full hfull isNum numOp).symm.trans hrun
        · intro hall
          have hnil := hall.1 [] List.nil_prefix
          simp only [Call.move, depth, List.map_nil, List.sum_nil] at hnil
          omega

/-- The guard keeps the stack in its `len + 1` entries exactly when these can be allocated, no call
pushes onto a full stack, and every text has room in its entry. -/
theorem stack_inBounds_iff (hlen : 0 ≤ len.val) (hit : g.it.val = -1)
    (hg : ∀ g₀, stackInit g len = .ok g₀ → Guarded g₀ calls) :
    (∃ g₀, stackInit g len = .ok g₀ ∧ StackInBounds len g₀ calls) ↔
      len.val < intMax ∧ (∀ p, p <+: calls → depth p ≤ len.val + 1) ∧ ∀ c ∈ calls, c.Fits := by
  by_cases hlt : len.val < intMax
  · obtain ⟨g₀, hinit, hroom, hit₀⟩ := room_init hlen hlt hit
    have hbounds := hroom.inBounds_iff (hg g₀ hinit)
    have hdepth : (∀ p, p <+: calls → g₀.it.val + depth p ≤ len.val) ↔
        ∀ p, p <+: calls → depth p ≤ len.val + 1 := by
      rw [hit₀, hit]
      exact forall₂_congr fun p _ => by omega
    rw [hdepth] at hbounds
    constructor
    · rintro ⟨g₁, hinit', hin⟩
      cases hinit.symm.trans hinit'
      exact ⟨hlt, hbounds.mp hin⟩
    · rintro ⟨-, hall⟩
      exact ⟨g₀, hinit, hbounds.mpr hall⟩
  · constructor
    · rintro ⟨g₀, hinit, -⟩
      cases (stackInit_intMax hlt g).symm.trans hinit
    · exact fun hall => absurd hall.1 hlt

theorem stack_inBounds_iff_sample :
    (∃ g₀, stackInit .initial CInt.zero = .ok g₀ ∧
      StackInBounds CInt.zero g₀ [.push CInt.zero ['+'], .pop]) ↔
      CInt.zero.val < intMax ∧
        (∀ p, p <+: [Call.push CInt.zero ['+'], .pop] → depth p ≤ CInt.zero.val + 1) ∧
        ∀ c ∈ [Call.push CInt.zero ['+'], .pop], c.Fits := by
  refine stack_inBounds_iff (by decide) rfl fun g₀ hinit => ?_
  cases hinit
  refine ⟨(fun h => nomatch h), fun g' hg' => ⟨fun _ => ?_, fun _ _ => trivial⟩⟩
  cases hg'
  rfl

/-- The second push onto a stack of one entry writes the entry behind it. -/
theorem stack_not_inBounds :
    ∃ g₀, stackInit .initial CInt.zero = .ok g₀ ∧
      Guarded g₀ [.push CInt.zero ['+'], .push CInt.zero ['-']] ∧
      ¬ StackInBounds CInt.zero g₀ [.push CInt.zero ['+'], .push CInt.zero ['-']] := by
  refine ⟨_, rfl, ⟨(fun h => nomatch h), fun _ _ => ⟨(fun h => nomatch h), fun _ _ => trivial⟩⟩, ?_⟩
  rintro ⟨-, g, hg, -, -, g', hg', -⟩
  cases hg
  cases hg'

end

end GoodCommand.Calculator.StringStack
