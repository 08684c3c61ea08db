import GoodCommand.Library.CInt

/-! Clients that each hold something, and an `int` that counts what they hold together. -/

namespace GoodCommand

/-- What holds of the initial state, and is kept by every step, holds of every state that is
reached. -/
theorem invariant {α : Type} {step : α → α → Prop} {I : α → Prop} {s₀ s : α}
    (hreach : Relation.ReflTransGen step s₀ s) (hinit : I s₀)
    (hstep : ∀ s s', I s → step s s' → I s') : I s := by
  induction hreach with
  | refl => exact hinit
  | tail _ hlast ih => exact hstep _ _ ih hlast

variable {C P : Type} [Fintype C] {w : P → ℤ} {f : C → P} {c : C} {p : P}

def tally (w : P → ℤ) (f : C → P) : ℤ := ∑ c, w (f c)

theorem tally_const (hp : w p = 0) : tally w (fun _ : C => p) = 0 := by
  unfold tally
  exact Finset.sum_eq_zero fun _ _ => hp

theorem tally_nonneg (h : ∀ c, 0 ≤ w (f c)) : 0 ≤ tally w f := Finset.sum_nonneg fun c _ => h c

theorem tally_nonpos (h : ∀ c, w (f c) ≤ 0) : tally w f ≤ 0 := Finset.sum_nonpos fun c _ => h c

theorem tally_pos (h : ∀ c, 0 ≤ w (f c)) (hc : 0 < w (f c)) : 0 < tally w f :=
  Finset.sum_pos' (fun c _ => h c) ⟨c, Finset.mem_univ c, hc⟩

theorem tally_neg (h : ∀ c, w (f c) ≤ 0) (hc : w (f c) < 0) : tally w f < 0 :=
  Finset.sum_neg' (fun c _ => h c) ⟨c, Finset.mem_univ c, hc⟩

theorem abs_tally_le (h : ∀ p, |w p| ≤ 1) : |tally w f| ≤ Fintype.card C := by
  unfold tally
  calc |∑ c, w (f c)| ≤ ∑ c, |w (f c)| := Finset.abs_sum_le_sum_abs ..
    _ ≤ ∑ _c : C, (1 : ℤ) := Finset.sum_le_sum fun c _ => h (f c)
    _ = Fintype.card C := by simp

variable [DecidableEq C]

theorem tally_update (w : P → ℤ) (f : C → P) (c : C) (p : P) :
    tally w (Function.update f c p) = tally w f - w (f c) + w p := by
  have hother : ∑ x ∈ Finset.univ.erase c, w (Function.update f c p x) =
      ∑ x ∈ Finset.univ.erase c, w (f x) :=
    Finset.sum_congr rfl fun x hx => by rw [Function.update_of_ne (Finset.ne_of_mem_erase hx)]
  unfold tally
  rw [← Finset.add_sum_erase _ _ (Finset.mem_univ c), hother,
    ← Finset.add_sum_erase _ (fun x => w (f x)) (Finset.mem_univ c), Function.update_self]
  ring

/-- An `int` that counts what the clients hold still does when it is changed by as much as one of
them comes to hold more, or less. -/
theorem counted_update {v : CInt} (hv : v.val = tally w f) (hw : ∀ p, |w p| ≤ 1)
    (hfew : Fintype.card C < 2 ^ 31) (c : C) (p : P) :
    (CInt.wrap (v.val - w (f c) + w p)).val = tally w (Function.update f c p) := by
  have hle := abs_tally_le (f := Function.update f c p) hw
  rw [abs_le] at hle
  rw [hv, ← tally_update]
  apply CInt.wrap_of_fits
  unfold FitsInt intMin intMax
  omega

end GoodCommand
