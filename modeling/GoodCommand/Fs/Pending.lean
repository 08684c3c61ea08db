import GoodCommand.Fs.Defs
import GoodCommand.Library.Tally

/-! The readers of a file and the direct I/O requests to it, any number of them at once. What a
function does in several steps other clients may come between. -/

namespace GoodCommand.Fs
open Relation (ReflTransGen)

variable {A : Atomics} {C : Type} [DecidableEq C]

/-! ### Readers -/

/-- Where a client is: it has no part in the counter, it has been counted, or it is inside
`i_readcount_dec` behind the `BUG_ON`. -/
inductive Reading where
  | idle
  | reading
  | checked
  deriving DecidableEq

def Reading.weight : Reading → ℤ
  | idle => 0
  | reading => 1
  | checked => 1

/-- `bug` tells whether some `BUG_ON` has found the counter zero. -/
structure ReadState (C : Type) where
  inode : Inode
  phase : C → Reading
  bug : Bool

/-- A client calls `i_readcount_inc`, or `i_readcount_dec`, in two steps, where it has been counted.
-/
inductive ReadStep (A : Atomics) : ReadState C → ReadState C → Prop where
  | inc {s : ReadState C} {c : C} (hc : s.phase c = .idle) :
      ReadStep A s ⟨iReadcountInc A s.inode, Function.update s.phase c .reading, s.bug⟩
  | check {s : ReadState C} {c : C} (hc : s.phase c = .reading) :
      ReadStep A s ⟨s.inode, Function.update s.phase c .checked, s.bug || iReadcountBug s.inode⟩
  | dec {s : ReadState C} {c : C} (hc : s.phase c = .checked) :
      ReadStep A s ⟨iReadcountDec A s.inode, Function.update s.phase c .idle, s.bug⟩

structure ReadState.Inv [Fintype C] (s : ReadState C) : Prop where
  count : s.inode.i_readcount.val = tally Reading.weight s.phase
  bug : s.bug = false

variable [Fintype C]

theorem ReadStep.inv (hfew : Fintype.card C < 2 ^ 31) {s s' : ReadState C} (hinv : s.Inv)
    (hstep : ReadStep A s s') : s'.Inv := by
  have hweight : ∀ p : Reading, |p.weight| ≤ 1 := fun p => by cases p <;> decide
  cases hstep with
  | @inc c hc =>
    refine ⟨?_, hinv.bug⟩
    rw [← counted_update hinv.count hweight hfew, hc, iReadcountInc, A.inc_eq]
    simp [Reading.weight]
  | @check c hc =>
    have hsome : 0 < s.inode.i_readcount.val := by
      rw [hinv.count]
      refine tally_pos (c := c) (fun b => ?_) (by rw [hc]; decide)
      cases s.phase b <;> decide
    refine ⟨?_, ?_⟩
    · rw [tally_update, hc, hinv.count]
      simp [Reading.weight]
    · simp [iReadcountBug, hinv.bug, hsome.ne']
  | @dec c hc =>
    refine ⟨?_, hinv.bug⟩
    rw [← counted_update hinv.count hweight hfew, hc, iReadcountDec, A.dec_eq]
    simp [Reading.weight]

omit [DecidableEq C] in
theorem tally_reading (phase : C → Reading) : tally Reading.weight phase =
    (Finset.univ.filter fun c => phase c ≠ .idle).card := by
  have hweight : ∀ p : Reading, p.weight = if p ≠ .idle then 1 else 0 :=
    fun p => by cases p <;> rfl
  unfold tally
  simp only [hweight, Finset.sum_boole]

/-- Whatever the order in which clients are counted and uncounted, and whichever of them come
between the `BUG_ON` of another one and its `atomic_dec`: the `BUG_ON` never fires, and the counter
tells how many clients there are. -/
theorem readcount_never_bugs (hfew : Fintype.card C < 2 ^ 31) {inode : Inode}
    (hinode : inode.i_readcount.val = 0) {s : ReadState C}
    (hreach : ReflTransGen (ReadStep A) ⟨inode, fun _ => .idle, false⟩ s) :
    s.bug = false ∧
      s.inode.i_readcount.val = (Finset.univ.filter fun c => s.phase c ≠ .idle).card := by
  have hinit : (⟨inode, fun _ => .idle, false⟩ : ReadState C).Inv :=
    ⟨hinode.trans (tally_const rfl).symm, rfl⟩
  have hinv := invariant hreach hinit fun _ _ hinv hstep => hstep.inv hfew hinv
  exact ⟨hinv.bug, hinv.count.trans (tally_reading s.phase)⟩

theorem readcount_never_bugs_two : ∃ s : ReadState Bool, s.phase true = .checked ∧
    s.phase false = .reading ∧ s.bug = false ∧
      s.inode.i_readcount.val = (Finset.univ.filter fun c => s.phase c ≠ .idle).card := by
  have hreach := ((((ReflTransGen.refl (r := ReadStep .wrapping)
    (a := ⟨⟨CInt.zero, CInt.zero, CInt.zero⟩, fun _ => .idle, false⟩)).tail
    (.inc (c := true) rfl)).tail (.inc (c := false) rfl)).tail (.check (c := true) rfl))
  exact ⟨_, rfl, rfl, readcount_never_bugs (by decide) rfl hreach⟩

/-! ### Direct I/O requests -/

/-- `inode_dio_wait` and the `wake_up_bit` that `inode_dio_end` calls. Whoever waits is first
registered for the bit, then reads the counter, and only then goes to sleep: `held w` tells that `w`
is registered and has read some other value than zero since. Who has been woken is registered no
more, whether it was asleep already or not. -/
structure DioWait (W : Type) where
  State : Type
  awake : State
  /-- one step of somebody inside `inode_dio_wait`, by the present value of the counter -/
  wait : CInt → State → State → Prop
  wakeUpBit : State → State
  held : State → W → Prop
  asleep : State → W → Prop
  awake_held : ∀ w, ¬ held awake w
  asleep_held : ∀ t w, asleep t w → held t w
  wait_held : ∀ v t t' w, wait v t t' → held t' w → held t w ∨ v.val ≠ 0
  wakeUpBit_held : ∀ t w, ¬ held (wakeUpBit t) w

/-- Where somebody is: not waiting, registered for the bit, behind a test of the counter that was
not zero, or asleep. -/
inductive Waiter where
  | awake
  | registered
  | tested
  | asleep
  deriving DecidableEq

/-- What one waiter does next: it is registered, it tests the counter, it goes to sleep. -/
inductive Waiter.Step (v : CInt) : Waiter → Waiter → Prop where
  | register : Step v .awake .registered
  | test (hsome : v.val ≠ 0) : Step v .registered .tested
  | leave (hnone : v.val = 0) : Step v .registered .awake
  | sleep : Step v .tested .asleep

def Waiter.held : Waiter → Prop
  | .awake => False
  | .registered => False
  | .tested => True
  | .asleep => True

theorem Waiter.Step.held {v : CInt} {p p' : Waiter} (hstep : Step v p p') (hheld : p'.held) :
    p.held ∨ v.val ≠ 0 := by
  cases hstep with
  | register => exact hheld.elim
  | test hsome => exact Or.inr hsome
  | leave => exact hheld.elim
  | sleep => exact Or.inl trivial

/-- Waiters that do what they are documented to do. -/
def DioWait.registering (W : Type) [DecidableEq W] : DioWait W where
  State := W → Waiter
  awake _ := .awake
  wait v t t' := ∃ w p, Waiter.Step v (t w) p ∧ t' = Function.update t w p
  wakeUpBit _ _ := .awake
  held t w := (t w).held
  asleep t w := t w = .asleep
  awake_held _ h := h
  asleep_held _ _ h := by rw [h]; trivial
  wait_held v t t' w hwait hheld := by
    obtain ⟨u, p, hstep, rfl⟩ := hwait
    by_cases hw : w = u
    · subst hw
      rw [Function.update_self] at hheld
      exact hstep.held hheld
    · rw [Function.update_of_ne hw] at hheld
      exact Or.inl hheld
  wakeUpBit_held _ _ h := h

/-- Where a client is: it has no request, it has one, or it is inside `inode_dio_end`, which has
found no other request and is to call `wake_up_bit`. -/
inductive Request where
  | idle
  | active
  | waking
  deriving DecidableEq

def Request.weight : Request → ℤ
  | idle => 0
  | active => 1
  | waking => 0

variable {W : Type} {D : DioWait W}

structure DioState (C : Type) (D : DioWait W) where
  inode : Inode
  phase : C → Request
  waiting : D.State

/-- A client begins or ends a request, in two steps where it ends the last one, or somebody goes on
in `inode_dio_wait`. -/
inductive DioStep (A : Atomics) : DioState C D → DioState C D → Prop where
  | start {s : DioState C D} {c : C} (hc : s.phase c = .idle) :
      DioStep A s ⟨inodeDioBegin A s.inode, Function.update s.phase c .active, s.waiting⟩
  | stop {s : DioState C D} {c : C} (hc : s.phase c = .active)
      (hlast : (inodeDioEnd A s.inode).2 = false) :
      DioStep A s ⟨(inodeDioEnd A s.inode).1, Function.update s.phase c .idle, s.waiting⟩
  | stopLast {s : DioState C D} {c : C} (hc : s.phase c = .active)
      (hlast : (inodeDioEnd A s.inode).2 = true) :
      DioStep A s ⟨(inodeDioEnd A s.inode).1, Function.update s.phase c .waking, s.waiting⟩
  | wake {s : DioState C D} {c : C} (hc : s.phase c = .waking) :
      DioStep A s ⟨s.inode, Function.update s.phase c .idle, D.wakeUpBit s.waiting⟩
  | wait {s : DioState C D} {t : D.State} (hwait : D.wait s.inode.i_dio_count s.waiting t) :
      DioStep A s ⟨s.inode, s.phase, t⟩

structure DioState.Inv (s : DioState C D) : Prop where
  count : s.inode.i_dio_count.val = tally Request.weight s.phase
  awaited : ∀ w, D.held s.waiting w → s.inode.i_dio_count.val ≠ 0 ∨ ∃ c, s.phase c = .waking

omit [DecidableEq C] in
theorem tally_request (phase : C → Request) : tally Request.weight phase =
    (Finset.univ.filter fun c => phase c = .active).card := by
  have hweight : ∀ p : Request, p.weight = if p = .active then 1 else 0 :=
    fun p => by cases p <;> rfl
  unfold tally
  simp only [hweight, Finset.sum_boole]

theorem DioStep.inv (hfew : Fintype.card C < 2 ^ 31) {s s' : DioState C D} (hinv : s.Inv)
    (hstep : DioStep A s s') : s'.Inv := by
  have hweight : ∀ p : Request, |p.weight| ≤ 1 := fun p => by cases p <;> decide
  have hend : ∀ c p, s.phase c = .active → p.weight = 0 →
      (inodeDioEnd A s.inode).1.i_dio_count.val =
        tally Request.weight (Function.update s.phase c p) := by
    intro c p hc hp
    rw [← counted_update hinv.count hweight hfew, hc, hp]
    simp [inodeDioEnd, A.decAndTest_eq, A.dec_eq, Request.weight]
  have hlast : (inodeDioEnd A s.inode).2 =
      decide ((inodeDioEnd A s.inode).1.i_dio_count.val = 0) := by
    simp [inodeDioEnd, A.decAndTest_eq]
  cases hstep with
  | @start c hc =>
    have hcount : (inodeDioBegin A s.inode).i_dio_count.val =
        tally Request.weight (Function.update s.phase c .active) := by
      rw [← counted_update hinv.count hweight hfew, hc, inodeDioBegin, A.inc_eq]
      simp [Request.weight]
    refine ⟨hcount, fun _ _ => Or.inl ?_⟩
    rw [hcount]
    refine (tally_pos (c := c) (fun b => ?_) ?_).ne'
    · cases Function.update s.phase c .active b <;> decide
    · rw [Function.update_self]
      decide
  | @stop c hc hnot =>
    -- it was not the last request, so there is another one that has to end
    refine ⟨hend c _ hc rfl, fun _ _ => Or.inl ?_⟩
    rw [hlast] at hnot
    exact of_decide_eq_false hnot
  | @stopLast c hc =>
    -- from here to its `wake_up_bit` the client itself is the one that sleepers wait for
    exact ⟨hend c _ hc rfl, fun _ _ => Or.inr ⟨c, Function.update_self ..⟩⟩
  | @wake c hc =>
    refine ⟨?_, fun w hw => absurd hw (D.wakeUpBit_held _ w)⟩
    rw [tally_update, hc, hinv.count]
    simp [Request.weight]
  | wait hwait =>
    refine ⟨hinv.count, fun w hw => ?_⟩
    rcases D.wait_held _ _ _ w hwait hw with hheld | hsome
    · exact hinv.awaited w hheld
    · exact Or.inl hsome

/-- Whatever the order in which requests begin and end and threads go on in `inode_dio_wait`, and
whoever comes between the last `atomic_dec_and_test` and its `wake_up_bit`: the counter tells how
many requests there are, and nobody sleeps unless some client still has a request or is about to
wake all. -/
theorem no_sleeper_forgotten (hfew : Fintype.card C < 2 ^ 31) {inode : Inode}
    (hinode : inode.i_dio_count.val = 0) {s : DioState C D}
    (hreach : ReflTransGen (DioStep A) ⟨inode, fun _ => .idle, D.awake⟩ s) :
    s.inode.i_dio_count.val = (Finset.univ.filter fun c => s.phase c = .active).card ∧
      ∀ w, D.asleep s.waiting w → ∃ c, s.phase c ≠ .idle := by
  have hinit : (⟨inode, fun _ => .idle, D.awake⟩ : DioState C D).Inv :=
    ⟨hinode.trans (tally_const rfl).symm, fun w hw => absurd hw (D.awake_held w)⟩
  have hinv := invariant hreach hinit fun _ _ hinv hstep => hstep.inv hfew hinv
  refine ⟨hinv.count.trans (tally_request s.phase), fun w hw => ?_⟩
  rcases hinv.awaited w (D.asleep_held _ w hw) with hsome | ⟨c, hc⟩
  · by_contra hidle
    push Not at hidle
    refine hsome ?_
    rw [hinv.count, funext hidle]
    exact tally_const rfl
  · exact ⟨c, fun hidle => by rw [hc] at hidle; cases hidle⟩

theorem no_sleeper_forgotten_two : ∃ s : DioState Bool (DioWait.registering Unit),
    s.phase true = .waking ∧ s.phase false = .active ∧ s.waiting () = .asleep ∧
      s.inode.i_dio_count.val = (Finset.univ.filter fun c => s.phase c = .active).card ∧
      ∀ w, (DioWait.registering Unit).asleep s.waiting w → ∃ c, s.phase c ≠ .idle := by
  have hreach := ((((((ReflTransGen.refl (r := DioStep .wrapping)
    (a := ⟨⟨CInt.zero, CInt.zero, CInt.zero⟩, fun _ => .idle,
      (DioWait.registering Unit).awake⟩)).tail
    (.start (c := true) rfl)).tail (.wait ⟨(), _, .register, rfl⟩)).tail
    (.wait ⟨(), _, .test (by decide), rfl⟩)).tail
    (.stopLast (c := true) rfl rfl)).tail (.start (c := false) rfl)).tail
    (.wait ⟨(), _, .sleep, rfl⟩)
  exact ⟨_, rfl, rfl, rfl, no_sleeper_forgotten (by decide) rfl hreach⟩

end GoodCommand.Fs
