import Mathlib.Data.Nat.ModEq
import Mathlib.Logic.Function.Basic
import Mathlib.Tactic.Tauto

/-! A value of several words that is written word by word, and read word by word while it is. A
count that goes up where a write begins and where it ends tells a reader whether it has read words
of different writes. -/

namespace GoodCommand

variable {ι V : Type} {i : ι} {v : ι → V}

/-- `writes` writes have ended, and the value was `past n` after the first `n` of them. -/
structure Cell (ι V : Type) where
  writes : ℕ
  busy : Prop
  words : ι → V
  past : ℕ → ι → V

/-- What a reader has read since the time when `began` writes had ended. -/
structure Attempt (ι V : Type) where
  began : ℕ
  got : ι → Option V

namespace Cell
variable {c : Cell ι V} {count count' M : ℕ}

def start (c : Cell ι V) : Cell ι V := { c with busy := True }

def store [DecidableEq ι] (c : Cell ι V) (i : ι) (x : V) : Cell ι V :=
  { c with words := Function.update c.words i x }

def stop (c : Cell ι V) (v : ι → V) : Cell ι V :=
  { c with writes := c.writes + 1, busy := False, past := Function.update c.past (c.writes + 1) v }

/-- `count` is what a counter that wraps around at `M` has come to. -/
structure Counts (M count : ℕ) (c : Cell ι V) : Prop where
  idle : ¬c.busy → count = 2 * c.writes % M
  busy : c.busy → count = (2 * c.writes + 1) % M

/-- Between two writes the words are those of the last one. -/
def Settled (c : Cell ι V) : Prop := ¬c.busy → c.words = c.past c.writes

theorem settled_start : c.start.Settled := fun hidle => absurd trivial hidle

theorem settled_stop (hwords : c.words = v) : (c.stop v).Settled := fun _ =>
  hwords.trans (Function.update_self (c.writes + 1) v c.past).symm

theorem Counts.start (hcounts : c.Counts M count) (hidle : ¬c.busy)
    (hcount : count' = (count + 1) % M) : c.start.Counts M count' where
  idle h := absurd trivial h
  busy _ := by
    rw [hcount, hcounts.idle hidle, Nat.mod_add_mod]
    rfl

theorem Counts.stop (hcounts : c.Counts M count) (hbusy : c.busy)
    (hcount : count' = (count + 1) % M) : (c.stop v).Counts M count' where
  idle _ := by
    rw [hcount, hcounts.busy hbusy, Nat.mod_add_mod]
    rfl
  busy h := h.elim

theorem Counts.even_iff (hcounts : c.Counts M count) (hM : 2 ∣ M) : count % 2 = 0 ↔ ¬c.busy := by
  by_cases hbusy : c.busy
  · rw [hcounts.busy hbusy, Nat.mod_mod_of_dvd _ hM]
    exact iff_of_false (by omega) (not_not.mpr hbusy)
  · rw [hcounts.idle hbusy, Nat.mod_mod_of_dvd _ hM]
    exact iff_of_true (by omega) hbusy

/-- A counter that is again where it was has either not moved or gone all the way round. -/
theorem Counts.unmoved {n : ℕ} (hcounts : c.Counts M count) (hn : n ≤ c.writes)
    (hround : 2 * c.writes + 1 < 2 * n + M) (hsame : count = 2 * n % M) :
    c.writes = n ∧ ¬c.busy := by
  have hnot : ∀ m, 2 * n ≤ m → m < 2 * n + M → count = m % M → m = 2 * n := by
    intro m hle hlt hm
    have hdvd := (Nat.modEq_iff_dvd' hle).mp (hsame.symm.trans hm)
    have hzero := Nat.eq_zero_of_dvd_of_lt hdvd (by omega)
    omega
  by_cases hbusy : c.busy
  · have := hnot _ (by omega) (by omega) (hcounts.busy hbusy)
    omega
  · have := hnot _ (by omega) (by omega) (hcounts.idle hbusy)
    exact ⟨by omega, hbusy⟩

end Cell

namespace Attempt
variable {c : Cell ι V} {a : Attempt ι V}

/-- As long as no write has begun since, the reader has read words of one write only. -/
structure Fits (c : Cell ι V) (a : Attempt ι V) : Prop where
  began : a.began ≤ c.writes
  got : c.writes = a.began → ¬c.busy → ∀ i x, a.got i = some x → x = c.past a.began i

theorem fits_new : (⟨c.writes, fun _ => none⟩ : Attempt ι V).Fits c where
  began := le_rfl
  got _ _ _ _ h := by cases h

theorem Fits.load [DecidableEq ι] (h : a.Fits c) (hsettled : c.Settled) :
    (⟨a.began, Function.update a.got i (some (c.words i))⟩ : Attempt ι V).Fits c where
  began := h.began
  got hnone hidle j x hx := by
    change Function.update a.got i (some (c.words i)) j = some x at hx
    change c.writes = a.began at hnone
    rcases eq_or_ne j i with rfl | hji
    · rw [Function.update_self, Option.some.injEq, hsettled hidle] at hx
      rw [← hx, hnone]
    · rw [Function.update_of_ne hji] at hx
      exact h.got hnone hidle j x hx

theorem Fits.start (h : a.Fits c) : a.Fits c.start where
  began := h.began
  got _ hidle := absurd trivial hidle

theorem Fits.store [DecidableEq ι] (h : a.Fits c) {x : V} : a.Fits (c.store i x) where
  began := h.began
  got hnone hidle := h.got hnone hidle

theorem Fits.stop (h : a.Fits c) : a.Fits (c.stop v) where
  began := h.began.trans (Nat.le_succ c.writes)
  got hnone := absurd hnone (Nat.lt_succ_of_le h.began).ne'

theorem Fits.read {M count : ℕ} (h : a.Fits c) (hcounts : c.Counts M count)
    (hround : 2 * c.writes + 1 < 2 * a.began + M) (hsame : count = 2 * a.began % M)
    (hgot : ∀ i, a.got i = some (v i)) : v = c.past a.began := by
  have hunmoved := hcounts.unmoved h.began hround hsame
  funext i
  exact h.got hunmoved.1 hunmoved.2 i (v i) (hgot i)

end Attempt

end GoodCommand
