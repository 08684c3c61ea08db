import GoodCommand.Library.Seqcount
import GoodCommand.Library.Tally

/-! `i_size_read` and `i_size_write` where a `long` has 32 bits and there are several processors:
the size is read and written half by half, in any order, under a seqcount. -/

namespace GoodCommand.Fs
open Relation (ReflTransGen)

/-- The operations of `linux/seqlock.h` on a `seqcount_t`, each with what it is documented to do.
`readBegin` waits while the count is odd. -/
structure Seqcount where
  readBegin : UInt32 → Option UInt32
  readRetry : UInt32 → UInt32 → Bool
  writeBegin : UInt32 → UInt32
  writeEnd : UInt32 → UInt32
  readBegin_eq : ∀ s, readBegin s = if s.toNat % 2 = 0 then some s else none
  readRetry_eq : ∀ s start, readRetry s start = decide (s ≠ start)
  writeBegin_eq : ∀ s, writeBegin s = s + 1
  writeEnd_eq : ∀ s, writeEnd s = s + 1

/-- Operations that do what they are documented to do. -/
def Seqcount.counting : Seqcount where
  readBegin s := if s.toNat % 2 = 0 then some s else none
  readRetry s start := decide (s ≠ start)
  writeBegin s := s + 1
  writeEnd s := s + 1
  readBegin_eq _ := rfl
  readRetry_eq _ _ := rfl
  writeBegin_eq _ := rfl
  writeEnd_eq _ := rfl

inductive Half where
  | low
  | high
  deriving DecidableEq

def half (i_size : BitVec 64) : Half → BitVec 32
  | .low => i_size.extractLsb' 0 32
  | .high => i_size.extractLsb' 32 32

def whole (w : Half → BitVec 32) : BitVec 64 := w .high ++ w .low

theorem whole_half (i_size : BitVec 64) : whole (half i_size) = i_size := by
  unfold whole half
  ext i hi
  rw [BitVec.getElem_append]
  split_ifs with hlow
  · simp [BitVec.getLsbD_eq_getElem hi]
  · rw [BitVec.getElem_extractLsb', Nat.add_sub_cancel' (not_lt.mp hlow)]
    exact (BitVec.getLsbD_eq_getElem hi)

/-- Where a client is. `called`, `began` and `ended` tell how many writes had ended when it called
`i_size_read`, began the last round of its loop, and returned; the code does not have them. -/
inductive Access where
  | idle
  | looping (called : ℕ)
  | reading (called : ℕ) (seq : UInt32) (began : ℕ) (i_size : Half → Option (BitVec 32))
  | returned (i_size : BitVec 64) (called began ended : ℕ)
  | writing (i_size : BitVec 64) (stored : Half → Bool)

def Access.Writes : Access → Prop
  | writing _ _ => True
  | _ => False

/-- `writes` writes have ended, after the first `n` of which the size was `sizes n`; the code has
neither. -/
structure SizeState (C : Type) where
  i_size_seqcount : UInt32
  i_size : Half → BitVec 32
  access : C → Access
  writes : ℕ
  sizes : ℕ → BitVec 64

variable {C : Type} [DecidableEq C] {Q : Seqcount}

def SizeState.goes (s : SizeState C) (c : C) (p : Access) : SizeState C :=
  { s with access := Function.update s.access c p }

/-- A client takes a step inside `i_size_read` or `i_size_write`. What calls `i_size_write` holds a
lock, so that there is no other client inside it. -/
inductive SizeStep (Q : Seqcount) : SizeState C → SizeState C → Prop where
  | call {s : SizeState C} {c : C} (hc : s.access c = .idle) :
      SizeStep Q s (s.goes c (.looping s.writes))
  | readBegin {s : SizeState C} {c : C} {called : ℕ} {seq : UInt32}
      (hc : s.access c = .looping called) (hseq : Q.readBegin s.i_size_seqcount = some seq) :
      SizeStep Q s (s.goes c (.reading called seq s.writes fun _ => none))
  | load {s : SizeState C} {c : C} {called : ℕ} {seq : UInt32} {began : ℕ}
      {i_size : Half → Option (BitVec 32)} (h : Half)
      (hc : s.access c = .reading called seq began i_size) :
      SizeStep Q s
        (s.goes c (.reading called seq began (Function.update i_size h (some (s.i_size h)))))
  | readRetry {s : SizeState C} {c : C} {called : ℕ} {seq : UInt32} {began : ℕ}
      {i_size : Half → BitVec 32}
      (hc : s.access c = .reading called seq began fun h => some (i_size h))
      (hretry : Q.readRetry s.i_size_seqcount seq = true) :
      SizeStep Q s (s.goes c (.looping called))
  | return {s : SizeState C} {c : C} {called : ℕ} {seq : UInt32} {began : ℕ}
      {i_size : Half → BitVec 32}
      (hc : s.access c = .reading called seq began fun h => some (i_size h))
      (hretry : Q.readRetry s.i_size_seqcount seq = false) :
      SizeStep Q s (s.goes c (.returned (whole i_size) called began s.writes))
  | forget {s : SizeState C} {c : C} {i_size : BitVec 64} {called began ended : ℕ}
      (hc : s.access c = .returned i_size called began ended) : SizeStep Q s (s.goes c .idle)
  | writeBegin {s : SizeState C} {c : C} (i_size : BitVec 64) (hc : s.access c = .idle)
      (hlock : ∀ b, ¬(s.access b).Writes) :
      SizeStep Q s ({ s with i_size_seqcount := Q.writeBegin s.i_size_seqcount }.goes c
        (.writing i_size fun _ => false))
  | store {s : SizeState C} {c : C} {i_size : BitVec 64} {stored : Half → Bool} (h : Half)
      (hc : s.access c = .writing i_size stored) :
      SizeStep Q s ({ s with i_size := Function.update s.i_size h (half i_size h) }.goes c
        (.writing i_size (Function.update stored h true)))
  | writeEnd {s : SizeState C} {c : C} {i_size : BitVec 64}
      (hc : s.access c = .writing i_size fun _ => true) :
      SizeStep Q s ({ s with
        i_size_seqcount := Q.writeEnd s.i_size_seqcount
        writes := s.writes + 1
        sizes := Function.update s.sizes (s.writes + 1) i_size }.goes c .idle)

/-! ### What the clients have read and written -/

def SizeState.cell (s : SizeState C) : Cell Half (BitVec 32) where
  writes := s.writes
  busy := ∃ c, (s.access c).Writes
  words := s.i_size
  past n := half (s.sizes n)

/-- What a client has read and written fits the state of the size. -/
def Access.Fits (x : Cell Half (BitVec 32)) : Access → Prop
  | idle => True
  | looping called => called ≤ x.writes
  | reading called seq began i_size =>
      called ≤ began ∧ seq.toNat = 2 * began % 2 ^ 32 ∧ (⟨began, i_size⟩ : Attempt _ _).Fits x
  | returned i_size called began ended =>
      called ≤ began ∧ began ≤ ended ∧ ended ≤ x.writes ∧
        (ended < began + 2 ^ 31 → i_size = whole (x.past began))
  | writing i_size stored => ∀ h, stored h = true → x.words h = half i_size h

structure SizeState.Inv (s : SizeState C) : Prop where
  counts : s.cell.Counts (2 ^ 32) s.i_size_seqcount.toNat
  settled : s.cell.Settled
  single : ∀ a b, (s.access a).Writes → (s.access b).Writes → a = b
  fits : ∀ c, (s.access c).Fits s.cell

namespace Access.Fits
variable {x : Cell Half (BitVec 32)} {p : Access}

theorem start (h : p.Fits x) : p.Fits x.start := by
  cases p with
  | reading => exact ⟨h.1, h.2.1, h.2.2.start⟩
  | _ => exact h

theorem store (h : p.Fits x) (hp : ¬p.Writes) {i : Half} {w : BitVec 32} :
    p.Fits (x.store i w) := by
  cases p with
  | reading => exact ⟨h.1, h.2.1, h.2.2.store⟩
  | writing => exact absurd trivial hp
  | _ => exact h

theorem stop (h : p.Fits x) {v : Half → BitVec 32} : p.Fits (x.stop v) := by
  cases p with
  | looping => exact Nat.le_succ_of_le h
  | reading => exact ⟨h.1, h.2.1, h.2.2.stop⟩
  | returned i_size called began ended =>
    refine ⟨h.1, h.2.1, Nat.le_succ_of_le h.2.2.1, fun hround => ?_⟩
    have hpast : (x.stop v).past began = x.past began := by
      unfold Cell.stop
      exact Function.update_of_ne (Nat.lt_succ_of_le (h.2.1.trans h.2.2.1)).ne ..
    rw [hpast]
    exact h.2.2.2 hround
  | _ => exact h

end Access.Fits

variable {s s' : SizeState C} {c : C} {p : Access}

@[simp] theorem SizeState.goes_self : (s.goes c p).access c = p := Function.update_self ..

theorem SizeState.goes_of_ne {b : C} (h : b ≠ c) : (s.goes c p).access b = s.access b :=
  Function.update_of_ne h ..

theorem SizeState.goes_fits {x : Cell Half (BitVec 32)} (hc : p.Fits x)
    (hothers : ∀ b, b ≠ c → (s.access b).Fits x) (b : C) : ((s.goes c p).access b).Fits x := by
  rcases eq_or_ne b c with rfl | hb
  · rwa [SizeState.goes_self]
  · rw [SizeState.goes_of_ne hb]
    exact hothers b hb

theorem SizeState.goes_busy : (∃ b, ((s.goes c p).access b).Writes) ↔
    p.Writes ∨ ∃ b, b ≠ c ∧ (s.access b).Writes :=
  Function.exists_update_iff s.access fun _ q => q.Writes

theorem SizeState.goes_busy_same (hp : p.Writes ↔ (s.access c).Writes) :
    (∃ b, ((s.goes c p).access b).Writes) ↔ ∃ b, (s.access b).Writes := by
  rw [SizeState.goes_busy, hp]
  constructor
  · rintro (h | ⟨b, -, hb⟩)
    · exact ⟨c, h⟩
    · exact ⟨b, hb⟩
  · rintro ⟨b, hb⟩
    rcases eq_or_ne b c with rfl | hbc
    · exact Or.inl hb
    · exact Or.inr ⟨b, hbc, hb⟩

theorem SizeState.goes_writes {b : C} (hp : p.Writes → (s.access c).Writes)
    (hb : ((s.goes c p).access b).Writes) : (s.access b).Writes := by
  rcases eq_or_ne b c with rfl | hbc
  · rw [SizeState.goes_self] at hb
    exact hp hb
  · rwa [SizeState.goes_of_ne hbc] at hb

theorem SizeState.Inv.goes (hinv : s.Inv) (hp : ¬p.Writes) (hc : ¬(s.access c).Writes)
    (hfits : p.Fits s.cell) : (s.goes c p).Inv := by
  have hcell : (s.goes c p).cell = s.cell := by
    have hbusy := propext (SizeState.goes_busy_same (iff_of_false hp hc))
    unfold SizeState.cell
    rw [hbusy]
    rfl
  refine ⟨?_, ?_, fun a b ha hb => ?_, ?_⟩
  · rw [hcell]
    exact hinv.counts
  · rw [hcell]
    exact hinv.settled
  · exact hinv.single a b (goes_writes (absurd · hp) ha) (goes_writes (absurd · hp) hb)
  · rw [hcell]
    exact goes_fits hfits fun b _ => hinv.fits b

theorem SizeState.Inv.writeBegin (hinv : s.Inv) (i_size : BitVec 64)
    (hlock : ∀ b, ¬(s.access b).Writes) :
    ({ s with i_size_seqcount := Q.writeBegin s.i_size_seqcount }.goes c
      (.writing i_size fun _ => false)).Inv := by
  have hcell : ({ s with i_size_seqcount := Q.writeBegin s.i_size_seqcount }.goes c
      (.writing i_size fun _ => false)).cell = s.cell.start := by
    have hbusy : (∃ b, ((s.goes c (.writing i_size fun _ => false)).access b).Writes) = True :=
      eq_true (SizeState.goes_busy.mpr (Or.inl trivial))
    unfold SizeState.cell Cell.start
    exact congrArg (fun busy => Cell.mk s.writes busy s.i_size fun n => half (s.sizes n)) hbusy
  refine ⟨?_, ?_, fun a b ha hb => ?_, ?_⟩
  · rw [hcell]
    refine hinv.counts.start (fun ⟨b, hb⟩ => hlock b hb) ?_
    exact (congrArg UInt32.toNat (Q.writeBegin_eq _)).trans (UInt32.toNat_add ..)
  · rw [hcell]
    exact Cell.settled_start
  · have honly : ∀ d, ((s.goes c (.writing i_size fun _ => false)).access d).Writes → d = c := by
      intro d hd
      by_contra hne
      rw [SizeState.goes_of_ne hne] at hd
      exact hlock d hd
    exact (honly a ha).trans (honly b hb).symm
  · rw [hcell]
    refine goes_fits (fun h hstored => absurd hstored Bool.false_ne_true) fun b _ => ?_
    exact (hinv.fits b).start

theorem SizeState.Inv.store (hinv : s.Inv) {i_size : BitVec 64} {stored : Half → Bool} (h : Half)
    (hc : s.access c = .writing i_size stored) :
    ({ s with i_size := Function.update s.i_size h (half i_size h) }.goes c
      (.writing i_size (Function.update stored h true))).Inv := by
  have hwrites : (s.access c).Writes := by
    rw [hc]
    trivial
  have hcell : ({ s with i_size := Function.update s.i_size h (half i_size h) }.goes c
      (.writing i_size (Function.update stored h true))).cell = s.cell.store h (half i_size h) := by
    have hbusy := propext (SizeState.goes_busy_same (s := s) (c := c)
      (p := .writing i_size (Function.update stored h true)) (iff_of_true trivial hwrites))
    unfold SizeState.cell Cell.store
    exact congrArg (fun busy => Cell.mk s.writes busy (Function.update s.i_size h (half i_size h))
      fun n => half (s.sizes n)) hbusy
  refine ⟨?_, ?_, fun a b ha hb => ?_, ?_⟩
  · rw [hcell]
    exact ⟨hinv.counts.idle, hinv.counts.busy⟩
  · rw [hcell]
    exact fun hidle => absurd ⟨c, hwrites⟩ hidle
  · exact hinv.single a b (goes_writes (s := s) (fun _ => hwrites) ha)
      (goes_writes (s := s) (fun _ => hwrites) hb)
  · rw [hcell]
    refine goes_fits (fun i hi => ?_) fun b hb => ?_
    · change Function.update s.i_size h (half i_size h) i = half i_size i
      rcases eq_or_ne i h with rfl | hih
      · exact Function.update_self ..
      · rw [Function.update_of_ne hih] at hi ⊢
        have hfits := hinv.fits c
        rw [hc] at hfits
        exact hfits i hi
    · exact (hinv.fits b).store fun hw => hb (hinv.single b c hw hwrites)

theorem SizeState.Inv.writeEnd (hinv : s.Inv) {i_size : BitVec 64}
    (hc : s.access c = .writing i_size fun _ => true) :
    ({ s with
      i_size_seqcount := Q.writeEnd s.i_size_seqcount
      writes := s.writes + 1
      sizes := Function.update s.sizes (s.writes + 1) i_size }.goes c .idle).Inv := by
  have hwrites : (s.access c).Writes := by
    rw [hc]
    trivial
  have hnone : ¬∃ b, ((s.goes c .idle).access b).Writes := by
    rw [SizeState.goes_busy]
    rintro (h | ⟨b, hbc, hb⟩)
    · exact h
    · exact hbc (hinv.single b c hb hwrites)
  have hpast : (fun n => half (Function.update s.sizes (s.writes + 1) i_size n)) =
      Function.update (fun n => half (s.sizes n)) (s.writes + 1) (half i_size) :=
    funext fun n => Function.apply_update (fun _ => half) s.sizes (s.writes + 1) i_size n
  have hcell : ({ s with
      i_size_seqcount := Q.writeEnd s.i_size_seqcount
      writes := s.writes + 1
      sizes := Function.update s.sizes (s.writes + 1) i_size }.goes c .idle).cell =
        s.cell.stop (half i_size) := by
    unfold SizeState.cell Cell.stop
    exact congrArg₂ (fun busy past => Cell.mk (s.writes + 1) busy s.i_size past)
      (eq_false hnone) hpast
  refine ⟨?_, ?_, fun a b ha _ => absurd ⟨a, ha⟩ hnone, ?_⟩
  · rw [hcell]
    refine hinv.counts.stop ⟨c, hwrites⟩ ?_
    exact (congrArg UInt32.toNat (Q.writeEnd_eq _)).trans (UInt32.toNat_add ..)
  · rw [hcell]
    -- both halves have been stored, so the words are those of the new size
    refine Cell.settled_stop (funext fun i => ?_)
    have hfits := hinv.fits c
    rw [hc] at hfits
    exact hfits i rfl
  · rw [hcell]
    exact goes_fits trivial fun b _ => (hinv.fits b).stop

theorem SizeStep.inv (hinv : s.Inv) (hstep : SizeStep Q s s') : s'.Inv := by
  have hfits : ∀ c p, s.access c = p → p.Fits s.cell := fun c p hc => hc ▸ hinv.fits c
  have hreads : ∀ c p, s.access c = p → ¬p.Writes → ¬(s.access c).Writes := fun c p hc => hc ▸ id
  cases hstep with
  | call hc => exact hinv.goes id (hreads _ _ hc id) le_rfl
  | readBegin hc hseq =>
    rw [Q.readBegin_eq] at hseq
    -- the loop of `read_seqcount_begin` has ended, so the count is even and nobody writes
    split_ifs at hseq with heven
    cases hseq
    refine hinv.goes id (hreads _ _ hc id) ⟨hfits _ _ hc, ?_, Attempt.fits_new⟩
    exact hinv.counts.idle ((hinv.counts.even_iff (by decide)).mp heven)
  | load h hc =>
    have hread := hfits _ _ hc
    exact hinv.goes id (hreads _ _ hc id) ⟨hread.1, hread.2.1, hread.2.2.load hinv.settled⟩
  | readRetry hc =>
    have hread := hfits _ _ hc
    exact hinv.goes id (hreads _ _ hc id) (hread.1.trans hread.2.2.began)
  | @«return» c called seq began i_size hc hretry =>
    have hread := hfits _ _ hc
    rw [Q.readRetry_eq, decide_eq_false_iff_not, not_not] at hretry
    refine hinv.goes id (hreads _ _ hc id) ⟨hread.1, hread.2.2.began, le_rfl, fun hround => ?_⟩
    -- the count is what it was, and too few writes have come in between for it to come round
    refine congrArg whole (hread.2.2.read hinv.counts ?_ ?_ fun _ => rfl)
    · change 2 * s.writes + 1 < 2 * began + 2 ^ 32
      omega
    · exact (congrArg UInt32.toNat hretry).trans hread.2.1
  | forget hc => exact hinv.goes id (hreads _ _ hc id) trivial
  | writeBegin i_size hc hlock => exact hinv.writeBegin i_size hlock
  | store h hc => exact hinv.store h hc
  | writeEnd hc => exact hinv.writeEnd hc

/-! ### Runs -/

/-- What holds of the size, its readers and its writers. -/
structure SizeState.Consistent (Q : Seqcount) (s : SizeState C) : Prop where
  settled : (∀ c, ¬(s.access c).Writes) → whole s.i_size = s.sizes s.writes
  returned : ∀ c i_size called began ended, s.access c = .returned i_size called began ended →
    called ≤ began ∧ began ≤ ended ∧ ended ≤ s.writes ∧
      (ended < began + 2 ^ 31 → i_size = s.sizes began)
  retries : ∀ c called seq began i_size, s.access c = .reading called seq began i_size →
    Q.readRetry s.i_size_seqcount seq = true → began < s.writes ∨ ∃ b, (s.access b).Writes
  returns : (∀ c, ¬(s.access c).Writes) → ∀ c, s.access c = .idle → ReflTransGen (SizeStep Q) s
    (s.goes c (.returned (s.sizes s.writes) s.writes s.writes s.writes))

theorem SizeState.goes_goes {q : Access} : (s.goes c p).goes c q = s.goes c q := by
  unfold SizeState.goes
  rw [Function.update_idem]

theorem SizeState.Inv.returns (hinv : s.Inv) (hidle : ∀ c, ¬(s.access c).Writes)
    (hc : s.access c = .idle) : ReflTransGen (SizeStep Q) s
      (s.goes c (.returned (s.sizes s.writes) s.writes s.writes s.writes)) := by
  have hwords : s.i_size = half (s.sizes s.writes) := hinv.settled fun ⟨b, hb⟩ => hidle b hb
  have heven := (hinv.counts.even_iff (by decide)).mpr fun ⟨b, hb⟩ => hidle b hb
  have hcall := SizeStep.call (Q := Q) hc
  have hbegin := SizeStep.readBegin (Q := Q) (s := s.goes c (.looping s.writes)) goes_self
    ((Q.readBegin_eq _).trans (if_pos heven))
  have hlow := SizeStep.load (Q := Q) .low (s := s.goes c (.reading s.writes s.i_size_seqcount
    s.writes fun _ => none)) goes_self
  have hhigh := SizeStep.load (Q := Q) .high (s := s.goes c (.reading s.writes s.i_size_seqcount
    s.writes (Function.update (fun _ => none) .low (some (s.i_size .low))))) goes_self
  have hall : Function.update (Function.update (fun _ => none) Half.low (some (s.i_size .low)))
      .high (some (s.i_size .high)) = fun h => some (s.i_size h) :=
    funext fun h => by cases h <;> rfl
  have hreturn := SizeStep.return (Q := Q) (s := s.goes c (.reading s.writes s.i_size_seqcount
    s.writes fun h => some (s.i_size h))) goes_self
    ((Q.readRetry_eq _ _).trans (decide_eq_false (not_not.mpr rfl)))
  rw [goes_goes] at hbegin hlow hhigh hreturn
  rw [show whole s.i_size = s.sizes s.writes by rw [hwords, whole_half]] at hreturn
  change SizeStep Q _ (s.goes c (.reading _ _ _ (Function.update (Function.update (fun _ => none)
    Half.low (some (s.i_size .low))) .high (some (s.i_size .high))))) at hhigh
  rw [hall] at hhigh
  exact ((((ReflTransGen.single hcall).tail hbegin).tail hlow).tail hhigh).tail hreturn

theorem SizeState.Inv.consistent (hinv : s.Inv) : s.Consistent Q where
  settled hidle := by
    have hwords : s.i_size = half (s.sizes s.writes) := hinv.settled fun ⟨b, hb⟩ => hidle b hb
    rw [hwords, whole_half]
  returned c i_size called began ended hc := by
    have hfits := hinv.fits c
    rw [hc] at hfits
    refine ⟨hfits.1, hfits.2.1, hfits.2.2.1, fun hround => ?_⟩
    exact (hfits.2.2.2 hround).trans (whole_half _)
  retries c called seq began i_size hc hretry := by
    have hfits := hinv.fits c
    rw [hc] at hfits
    rw [Q.readRetry_eq, decide_eq_true_iff] at hretry
    by_contra hquiet
    push Not at hquiet
    have hsame : s.writes = began := le_antisymm hquiet.1 hfits.2.2.began
    have hcount := hinv.counts.idle fun ⟨b, hb⟩ => hquiet.2 b hb
    refine hretry (UInt32.toNat_inj.mp ?_)
    rw [hcount, hfits.2.1, ← hsame]
    rfl
  returns hidle c hc := hinv.returns hidle hc

omit [DecidableEq C] in
theorem inv_new (i_size : BitVec 64) :
    (⟨0, half i_size, fun _ => .idle, 0, fun _ => i_size⟩ : SizeState C).Inv where
  counts := ⟨fun _ => rfl, fun ⟨_, hb⟩ => hb.elim⟩
  settled _ := rfl
  single _ _ ha := ha.elim
  fits _ := trivial

/-- However the steps of any clients follow one another, and in whatever order each of them reads
and writes the halves: `i_size_read` returns a size that the file had after it was called, unless `2
^ 31` writes came into the last round of its loop; and it goes round again only where a write came
into the round or is going on. -/
theorem i_size_consistent {i_size : BitVec 64}
    (hreach : ReflTransGen (SizeStep Q) ⟨0, half i_size, fun _ => .idle, 0, fun _ => i_size⟩ s) :
    s.Consistent Q :=
  (invariant hreach (inv_new i_size) fun _ _ hinv hstep => hstep.inv hinv).consistent

theorem i_size_consistent_torn : ∃ s : SizeState Bool,
    (∃ i_size, s.access true = .reading 0 0 0 i_size ∧
      i_size .low = some 0xffffffff ∧ i_size .high = some 1) ∧ s.Consistent .counting := by
  have hreach := (((((((ReflTransGen.refl (r := SizeStep .counting)
    (a := ⟨0, half 0xffffffff, fun _ => .idle, 0, fun _ => 0xffffffff⟩)).tail
    (.call (c := true) rfl)).tail (.readBegin (c := true) rfl rfl)).tail
    (.load (c := true) .low rfl)).tail
    (.writeBegin (c := false) 0x100000000 rfl fun b => by cases b <;> exact id)).tail
    (.store (c := false) .high rfl)).tail (.load (c := true) .high rfl))
  exact ⟨_, ⟨_, rfl, rfl, rfl⟩, i_size_consistent hreach⟩

end GoodCommand.Fs
