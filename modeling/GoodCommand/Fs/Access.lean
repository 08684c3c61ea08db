import GoodCommand.Fs.Defs
import GoodCommand.Library.Tally

/-! Writing to a file and denying it, and mapping a file writably and denying that, by any number of
clients at once. A counter is positive while it is used and negative while its use is denied. -/

namespace GoodCommand.Fs
open Relation (ReflTransGen)

/-- A counter with the functions that use it, deny its use and give back what they got, and the test
for whether it is used. -/
structure Gate (T : Type) where
  count : T → CInt
  get : T → T × Option Errno
  put : T → T
  deny : T → T × Option Errno
  allow : T → T
  used : T → Bool

def writeAccess (A : Atomics) : Gate Inode where
  count := Inode.i_writecount
  get := getWriteAccess A
  put := putWriteAccess A
  deny := denyWriteAccess A
  allow inode := (allowWriteAccess A (some inode)).getD inode
  used := inodeIsOpenForWrite

def writableMappings (A : Atomics) : Gate AddressSpace where
  count := AddressSpace.i_mmap_writable
  get := mappingMapWritable A
  put := mappingUnmapWritable A
  deny := mappingDenyWritable A
  allow := mappingAllowWritable A
  used := mappingWritablyMapped

variable {T C : Type} {A : Atomics} {g : Gate T} {busy denied : Errno}

structure Gate.Counts (A : Atomics) (g : Gate T) (busy denied : Errno) : Prop where
  get : ∀ x, (g.count (g.get x).1, (g.get x).2) = incOr A denied (g.count x)
  put : ∀ x, g.count (g.put x) = A.dec (g.count x)
  deny : ∀ x, (g.count (g.deny x).1, (g.deny x).2) = decOr A busy (g.count x)
  allow : ∀ x, g.count (g.allow x) = A.inc (g.count x)
  used : ∀ x, g.used x = true ↔ 0 < (g.count x).val
  get_same : ∀ x, g.count (g.get x).1 = g.count x → (g.get x).1 = x
  deny_same : ∀ x, g.count (g.deny x).1 = g.count x → (g.deny x).1 = x

theorem writeAccess_counts (A : Atomics) : (writeAccess A).Counts A .ETXTBSY .ETXTBSY where
  get _ := rfl
  put _ := rfl
  deny _ := rfl
  allow _ := rfl
  used _ := decide_eq_true_iff
  get_same inode h := congrArg (fun v => { inode with i_writecount := v }) h
  deny_same inode h := congrArg (fun v => { inode with i_writecount := v }) h

theorem writableMappings_counts (A : Atomics) : (writableMappings A).Counts A .EBUSY .EPERM where
  get _ := rfl
  put _ := rfl
  deny _ := rfl
  allow _ := rfl
  used _ := decide_eq_true_iff
  get_same _ h := congrArg AddressSpace.mk h
  deny_same _ h := congrArg AddressSpace.mk h

theorem incOr_neg {v : CInt} (h : v.val < 0) : incOr A denied v = (v, some denied) := by
  simp [incOr, A.incUnlessNegative_eq, h]

theorem incOr_nonneg {v : CInt} (h : 0 ≤ v.val) :
    incOr A denied v = (CInt.wrap (v.val + 1), none) := by
  simp [incOr, A.incUnlessNegative_eq, A.inc_eq, not_lt.mpr h]

theorem decOr_pos {v : CInt} (h : 0 < v.val) : decOr A busy v = (v, some busy) := by
  simp [decOr, A.decUnlessPositive_eq, h]

theorem decOr_nonpos {v : CInt} (h : v.val ≤ 0) :
    decOr A busy v = (CInt.wrap (v.val - 1), none) := by
  simp [decOr, A.decUnlessPositive_eq, A.dec_eq, not_lt.mpr h]

namespace Gate.Counts
variable {x : T}

theorem get_ok (hg : g.Counts A busy denied) (hret : (g.get x).2 = none) :
    0 ≤ (g.count x).val ∧ g.count (g.get x).1 = CInt.wrap ((g.count x).val + 1) := by
  have hcounts := hg.get x
  by_cases hneg : (g.count x).val < 0
  · rw [incOr_neg hneg, hret] at hcounts
    cases (Prod.mk.inj hcounts).2
  · rw [incOr_nonneg (not_lt.mp hneg)] at hcounts
    exact ⟨not_lt.mp hneg, (Prod.mk.inj hcounts).1⟩

theorem get_ret (hg : g.Counts A busy denied) :
    (g.get x).2 = if (g.count x).val < 0 then some denied else none := by
  refine (congrArg Prod.snd (hg.get x)).trans ?_
  split_ifs with hneg
  · rw [incOr_neg hneg]
  · rw [incOr_nonneg (not_lt.mp hneg)]

theorem get_fails (hg : g.Counts A busy denied) (hret : (g.get x).2 ≠ none) : (g.get x).1 = x := by
  have hneg : (g.count x).val < 0 := by
    by_contra hneg
    exact hret (hg.get_ret.trans (if_neg hneg))
  have hcounts := hg.get x
  rw [incOr_neg hneg] at hcounts
  exact hg.get_same x (Prod.mk.inj hcounts).1

theorem deny_ok (hg : g.Counts A busy denied) (hret : (g.deny x).2 = none) :
    (g.count x).val ≤ 0 ∧ g.count (g.deny x).1 = CInt.wrap ((g.count x).val - 1) := by
  have hcounts := hg.deny x
  by_cases hpos : 0 < (g.count x).val
  · rw [decOr_pos hpos, hret] at hcounts
    cases (Prod.mk.inj hcounts).2
  · rw [decOr_nonpos (not_lt.mp hpos)] at hcounts
    exact ⟨not_lt.mp hpos, (Prod.mk.inj hcounts).1⟩

theorem deny_ret (hg : g.Counts A busy denied) :
    (g.deny x).2 = if 0 < (g.count x).val then some busy else none := by
  refine (congrArg Prod.snd (hg.deny x)).trans ?_
  split_ifs with hpos
  · rw [decOr_pos hpos]
  · rw [decOr_nonpos (not_lt.mp hpos)]

theorem deny_fails (hg : g.Counts A busy denied) (hret : (g.deny x).2 ≠ none) :
    (g.deny x).1 = x := by
  have hpos : 0 < (g.count x).val := by
    by_contra hpos
    exact hret (hg.deny_ret.trans (if_neg hpos))
  have hcounts := hg.deny x
  rw [decOr_pos hpos] at hcounts
  exact hg.deny_same x (Prod.mk.inj hcounts).1

end Gate.Counts

/-! ### Clients -/

inductive Hold where
  | idle
  | user
  | denier
  deriving DecidableEq

def Hold.weight : Hold → ℤ
  | idle => 0
  | user => 1
  | denier => -1

structure GateState (T C : Type) where
  obj : T
  holds : C → Hold

variable [DecidableEq C]

/-- A client calls one of the functions. It gives back only what it holds. -/
inductive GateStep (g : Gate T) : GateState T C → GateState T C → Prop where
  | get {s : GateState T C} {c : C} (hc : s.holds c = .idle) (hret : (g.get s.obj).2 = none) :
      GateStep g s ⟨(g.get s.obj).1, Function.update s.holds c .user⟩
  | getFails {s : GateState T C} {c : C} (hc : s.holds c = .idle) (hret : (g.get s.obj).2 ≠ none) :
      GateStep g s ⟨(g.get s.obj).1, s.holds⟩
  | put {s : GateState T C} {c : C} (hc : s.holds c = .user) :
      GateStep g s ⟨g.put s.obj, Function.update s.holds c .idle⟩
  | deny {s : GateState T C} {c : C} (hc : s.holds c = .idle) (hret : (g.deny s.obj).2 = none) :
      GateStep g s ⟨(g.deny s.obj).1, Function.update s.holds c .denier⟩
  | denyFails {s : GateState T C} {c : C} (hc : s.holds c = .idle)
      (hret : (g.deny s.obj).2 ≠ none) : GateStep g s ⟨(g.deny s.obj).1, s.holds⟩
  | allow {s : GateState T C} {c : C} (hc : s.holds c = .denier) :
      GateStep g s ⟨g.allow s.obj, Function.update s.holds c .idle⟩

variable [Fintype C] {s s' : GateState T C}

structure Gate.Inv (g : Gate T) (s : GateState T C) : Prop where
  count : (g.count s.obj).val = tally Hold.weight s.holds
  exclusive : ∀ a b, s.holds a = .user → s.holds b ≠ .denier

namespace Gate.Inv

omit [DecidableEq C] in
theorem pos_iff (hinv : g.Inv s) : 0 < (g.count s.obj).val ↔ ∃ c, s.holds c = .user := by
  rw [hinv.count]
  constructor
  · intro hpos
    by_contra hnone
    push Not at hnone
    refine absurd hpos (not_lt.mpr (tally_nonpos fun c => ?_))
    have hc := hnone c
    cases h : s.holds c <;> simp_all [Hold.weight]
  · rintro ⟨c, hc⟩
    refine tally_pos (c := c) (fun b => ?_) (by rw [hc]; decide)
    have hb := hinv.exclusive c b hc
    cases h : s.holds b <;> simp_all [Hold.weight]

omit [DecidableEq C] in
theorem neg_iff (hinv : g.Inv s) : (g.count s.obj).val < 0 ↔ ∃ c, s.holds c = .denier := by
  rw [hinv.count]
  constructor
  · intro hneg
    by_contra hnone
    push Not at hnone
    refine absurd hneg (not_lt.mpr (tally_nonneg fun c => ?_))
    have hc := hnone c
    cases h : s.holds c <;> simp_all [Hold.weight]
  · rintro ⟨c, hc⟩
    refine tally_neg (c := c) (fun b => ?_) (by rw [hc]; decide)
    have hb : s.holds b ≠ .user := fun hb => hinv.exclusive b c hb hc
    cases h : s.holds b <;> simp_all [Hold.weight]

end Gate.Inv

omit [Fintype C] in
theorem holds_of_update {f : C → Hold} {c x : C} {p q : Hold} (h : Function.update f c p x = q)
    (hne : q ≠ p) : f x = q := by
  rcases eq_or_ne x c with rfl | hx
  · rw [Function.update_self] at h
    exact absurd h.symm hne
  · rwa [Function.update_of_ne hx] at h

theorem Gate.Inv.change {x : T} {c : C} {p : Hold} (hinv : g.Inv s)
    (hfew : Fintype.card C < 2 ^ 31)
    (hcount : g.count x = CInt.wrap ((g.count s.obj).val - (s.holds c).weight + p.weight))
    (hexclusive : ∀ a b, Function.update s.holds c p a = .user →
      Function.update s.holds c p b ≠ .denier) : g.Inv ⟨x, Function.update s.holds c p⟩ where
  count := by
    rw [hcount]
    exact counted_update hinv.count (fun p => by cases p <;> decide) hfew c p
  exclusive := hexclusive

theorem GateStep.inv (hg : g.Counts A busy denied) (hfew : Fintype.card C < 2 ^ 31)
    (hinv : g.Inv s) (hstep : GateStep g s s') : g.Inv s' := by
  have hfreed : ∀ c a b, Function.update s.holds c .idle a = .user →
      Function.update s.holds c .idle b ≠ .denier := fun c a b ha hb =>
    hinv.exclusive a b (holds_of_update ha (by decide)) (holds_of_update hb (by decide))
  cases hstep with
  | @get c hc hret =>
    obtain ⟨hnonneg, hcount⟩ := hg.get_ok hret
    refine hinv.change hfew ?_ fun a b _ hb => ?_
    · rw [hcount, hc]
      simp [Hold.weight]
    · -- a denier would have made the counter negative, and the call fail
      exact not_lt.mpr hnonneg (hinv.neg_iff.mpr ⟨b, holds_of_update hb (by decide)⟩)
  | getFails hc hret =>
    rw [hg.get_fails hret]
    exact hinv
  | @put c hc =>
    refine hinv.change hfew ?_ (hfreed c)
    rw [hg.put, A.dec_eq, hc]
    simp [Hold.weight]
  | @deny c hc hret =>
    obtain ⟨hnonpos, hcount⟩ := hg.deny_ok hret
    refine hinv.change hfew ?_ fun a b ha _ => ?_
    · rw [hcount, hc]
      simp [Hold.weight, sub_eq_add_neg]
    · exact not_lt.mpr hnonpos (hinv.pos_iff.mpr ⟨a, holds_of_update ha (by decide)⟩)
  | denyFails hc hret =>
    rw [hg.deny_fails hret]
    exact hinv
  | @allow c hc =>
    refine hinv.change hfew ?_ (hfreed c)
    rw [hg.allow, A.inc_eq, hc]
    simp [Hold.weight]

/-! ### Runs -/

/-- What holds between the counter, the clients and the results. -/
structure Gate.Guards (g : Gate T) (busy denied : Errno) (s : GateState T C) : Prop where
  exclusive : ∀ a b, s.holds a = .user → s.holds b ≠ .denier
  count : (g.count s.obj).val = (Finset.univ.filter fun c => s.holds c = .user).card -
    (Finset.univ.filter fun c => s.holds c = .denier).card
  used : g.used s.obj = true ↔ ∃ c, s.holds c = .user
  get : (g.get s.obj).2 = if ∃ c, s.holds c = .denier then some denied else none
  deny : (g.deny s.obj).2 = if ∃ c, s.holds c = .user then some busy else none
  failed : ((g.get s.obj).2 ≠ none → (g.get s.obj).1 = s.obj) ∧
    ((g.deny s.obj).2 ≠ none → (g.deny s.obj).1 = s.obj)

omit [DecidableEq C] in
theorem tally_weight (holds : C → Hold) : tally Hold.weight holds =
    (Finset.univ.filter fun c => holds c = .user).card -
      (Finset.univ.filter fun c => holds c = .denier).card := by
  have hweight : ∀ p : Hold, p.weight =
      (if p = .user then 1 else 0) - if p = .denier then 1 else 0 :=
    fun p => by cases p <;> rfl
  unfold tally
  simp only [hweight, Finset.sum_sub_distrib, Finset.sum_boole]

omit [DecidableEq C] in
theorem Gate.Inv.guards (hg : g.Counts A busy denied) (hinv : g.Inv s) :
    g.Guards busy denied s where
  exclusive := hinv.exclusive
  count := hinv.count.trans (tally_weight s.holds)
  used := (hg.used s.obj).trans hinv.pos_iff
  get := hg.get_ret.trans (if_congr hinv.neg_iff rfl rfl)
  deny := hg.deny_ret.trans (if_congr hinv.pos_iff rfl rfl)
  failed := ⟨hg.get_fails, hg.deny_fails⟩

theorem Gate.guards (hg : g.Counts A busy denied) (hfew : Fintype.card C < 2 ^ 31) {x : T}
    (hx : (g.count x).val = 0)
    (hreach : ReflTransGen (GateStep g) ⟨x, fun _ => .idle⟩ s) : g.Guards busy denied s := by
  have hinit : g.Inv (⟨x, fun _ => .idle⟩ : GateState T C) :=
    ⟨hx.trans (tally_const rfl).symm, fun _ _ ha => by cases ha⟩
  exact (invariant hreach hinit fun _ _ hinv hstep => hstep.inv hg hfew hinv).guards hg

/-- However the calls of any clients follow one another: a file is never written to while writing is
denied, nor mapped writably while that is denied; the counters tell how many writers, or how many
that deny writing, there are; and a call fails only while there is a client of the other kind. -/
theorem accesses_guarded (hfew : Fintype.card C < 2 ^ 31) {inode : Inode} {mapping : AddressSpace}
    (hinode : inode.i_writecount.val = 0) (hmapping : mapping.i_mmap_writable.val = 0) :
    (∀ s : GateState Inode C, ReflTransGen (GateStep (writeAccess A)) ⟨inode, fun _ => .idle⟩ s →
      (writeAccess A).Guards .ETXTBSY .ETXTBSY s) ∧
    ∀ s : GateState AddressSpace C,
      ReflTransGen (GateStep (writableMappings A)) ⟨mapping, fun _ => .idle⟩ s →
      (writableMappings A).Guards .EBUSY .EPERM s :=
  ⟨fun _ hreach => Gate.guards (writeAccess_counts A) hfew hinode hreach,
    fun _ hreach => Gate.guards (writableMappings_counts A) hfew hmapping hreach⟩

theorem accesses_guarded_two :
    (∃ s : GateState Inode Bool, s.holds = (fun _ => .user) ∧
      (writeAccess .wrapping).Guards .ETXTBSY .ETXTBSY s) ∧
    ∃ s : GateState AddressSpace Bool, s.holds = (fun _ => .denier) ∧
      (writableMappings .wrapping).Guards .EBUSY .EPERM s := by
  have hinode : Inode.i_writecount ⟨CInt.zero, CInt.zero, CInt.zero⟩ = CInt.zero := rfl
  have hmapping : AddressSpace.i_mmap_writable ⟨CInt.zero⟩ = CInt.zero := rfl
  have hguarded := accesses_guarded (C := Bool) (A := .wrapping) (by decide)
    (congrArg Subtype.val hinode) (congrArg Subtype.val hmapping)
  have hall : ∀ p : Hold, Function.update (Function.update (fun _ => .idle) true p) false p =
      fun _ => p := fun p => funext fun c => by cases c <;> rfl
  exact ⟨⟨_, hall .user, hguarded.1 _
      ((ReflTransGen.single (.get (c := true) rfl rfl)).tail (.get (c := false) rfl rfl))⟩,
    ⟨_, hall .denier, hguarded.2 _
      ((ReflTransGen.single (.deny (c := true) rfl rfl)).tail (.deny (c := false) rfl rfl))⟩⟩

end GoodCommand.Fs
