import Mathlib

/-! Straight-line code that may fail: what a run that did not fail has done. -/

namespace GoodCommand

variable {ε α β : Type}

theorem ok_bind (a : α) (f : α → Except ε β) : (Except.ok a >>= f) = f a := rfl

theorem bind_ok {x : Except ε α} {f : α → Except ε β} {b : β} (h : (x >>= f) = .ok b) :
    ∃ a, x = .ok a ∧ f a = .ok b := by
  cases x with
  | error e => cases h
  | ok a => exact ⟨a, rfl, h⟩

theorem map_ok {x : Except ε α} {f : α → β} {b : β} (h : x.map f = .ok b) :
    ∃ a, x = .ok a ∧ f a = b := by
  cases x with
  | error e => cases h
  | ok a => exact ⟨a, rfl, Except.ok.inj h⟩

theorem foldlM_cons_ok {f : β → α → Except ε β} {b b' : β} {a : α} {as : List α}
    (h : (a :: as).foldlM f b = .ok b') : ∃ b₁, f b a = .ok b₁ ∧ as.foldlM f b₁ = .ok b' := by
  rw [List.foldlM_cons] at h
  exact bind_ok h

theorem foldlM_flatMap {γ : Type} (f : β → α → Except ε β) (g : γ → List α) (cs : List γ) (b : β) :
    (cs.flatMap g).foldlM f b = cs.foldlM (fun b c => (g c).foldlM f b) b := by
  induction cs generalizing b with
  | nil => rfl
  | cons c cs ih =>
    rw [List.flatMap_cons, List.foldlM_append, List.foldlM_cons]
    exact bind_congr fun b => ih b

theorem foldlM_keeps {f : β → α → Except ε β} {I : β → Prop} {as : List α}
    (hstep : ∀ b a b', a ∈ as → I b → f b a = .ok b' → I b') {b b' : β} (hb : I b)
    (h : as.foldlM f b = .ok b') : I b' := by
  induction as generalizing b with
  | nil => cases h; exact hb
  | cons a as ih =>
    obtain ⟨b₁, hfirst, hrest⟩ := foldlM_cons_ok h
    exact ih (fun b c b' hc => hstep b c b' (List.mem_cons_of_mem _ hc))
      (hstep _ _ _ (by simp) hb hfirst) hrest

theorem foldlM_ok_iff {f : β → α → Except ε β} {P : α → Prop}
    (hstep : ∀ b a, (∃ b', f b a = .ok b') ↔ P a) (as : List α) (b : β) :
    (∃ b', as.foldlM f b = .ok b') ↔ ∀ a ∈ as, P a := by
  induction as generalizing b with
  | nil => exact ⟨fun _ _ ha => absurd ha List.not_mem_nil, fun _ => ⟨b, rfl⟩⟩
  | cons a as ih =>
    rw [List.forall_mem_cons]
    constructor
    · rintro ⟨b', h⟩
      obtain ⟨b₁, hfirst, hrest⟩ := foldlM_cons_ok h
      exact ⟨(hstep b a).mp ⟨b₁, hfirst⟩, (ih b₁).mp ⟨b', hrest⟩⟩
    · rintro ⟨ha, has⟩
      obtain ⟨b₁, hfirst⟩ := (hstep b a).mpr ha
      obtain ⟨b', hrest⟩ := (ih b₁).mpr has
      exact ⟨b', by rw [List.foldlM_cons, hfirst, ok_bind, hrest]⟩

theorem foldlM_range_inv {f : β → ℕ → Except ε β} (I : ℕ → β → Prop) {n : ℕ} {b : β} (hb : I 0 b)
    (hstep : ∀ i b, i < n → I i b → ∃ b', f b i = .ok b' ∧ I (i + 1) b') :
    ∃ b', (List.range n).foldlM f b = .ok b' ∧ I n b' := by
  induction n with
  | zero => exact ⟨b, rfl, hb⟩
  | succ n ih =>
    obtain ⟨b₁, hrun, hI⟩ := ih fun i b hi => hstep i b (by omega)
    obtain ⟨b₂, hlast, hI'⟩ := hstep n b₁ (by omega) hI
    refine ⟨b₂, ?_, hI'⟩
    rw [List.range_succ, List.foldlM_append, hrun, ok_bind, List.foldlM_cons, hlast, ok_bind]
    rfl

end GoodCommand
