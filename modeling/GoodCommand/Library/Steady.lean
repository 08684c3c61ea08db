import GoodCommand.Library.Fuel

/-! Programs that more fuel does not change once they have ended. Of these a run can be taken apart:
what was bound before, and the iterations of a loop. -/

namespace GoodCommand.Fuel

variable {ε α β σ ρ τ : Type}

def Steady (p : Prog ε α) : Prop := ∀ n m, n ≤ m → p n ≠ .error .outOfFuel → p m = p n

theorem steady_pure (a : α) : Steady (pure a : Prog ε α) := fun _ _ _ _ => rfl

theorem steady_lift (x : Except ε α) : Steady (Prog.lift x) := fun _ _ _ _ => rfl

theorem Steady.bind {p : Prog ε α} {f : α → Prog ε β} (hp : Steady p) (hf : ∀ a, Steady (f a)) :
    Steady (p >>= f) := by
  intro n m hnm hend
  rw [Prog.bind_apply] at hend ⊢
  have hfirst : p n ≠ .error .outOfFuel := by
    intro h
    rw [h] at hend
    exact hend rfl
  rw [Prog.bind_apply, hp n m hnm hfirst]
  cases h : p n with
  | error e => rfl
  | ok a =>
    rw [h] at hend
    exact hf a n m hnm hend

theorem Steady.ite {c : Prop} [Decidable c] {p q : Prog ε α} (hp : Steady p) (hq : Steady q) :
    Steady (if c then p else q) := by
  split
  · exact hp
  · exact hq

theorem steady_loop {body : σ → Prog ε (Ctl σ ρ)} (hbody : ∀ s, Steady (body s)) (s : σ) :
    Steady (loop body s) := by
  intro n
  induction n generalizing s with
  | zero => exact fun m _ hend => absurd rfl hend
  | succ n ih =>
    intro m hnm hend
    obtain ⟨m, rfl⟩ : ∃ k, m = k + 1 := ⟨m - 1, by omega⟩
    simp only [loop, loop.go] at hend ⊢
    have hfirst : body s n ≠ .error .outOfFuel := by
      intro h
      rw [h] at hend
      exact hend rfl
    rw [hbody s n m (by omega) hfirst]
    cases h : body s n with
    | error e => rfl
    | ok c =>
      rw [h] at hend
      cases c with
      | exit r => rfl
      | next t => exact ih t m (by omega) hend

theorem Steady.returns {p : Prog ε α} (hp : Steady p) {n : ℕ} {a : α} (h : p n = .ok a) :
    Returns p a := ⟨n, fun m hm => by rw [hp n m hm (by rw [h]; simp), h]⟩

theorem Steady.of_returns_bind {p : Prog ε α} {f : α → Prog ε β} {b : β} (hp : Steady p)
    (h : Returns (p >>= f) b) : ∃ a, Returns p a ∧ Returns (f a) b := by
  obtain ⟨N, hN⟩ := h
  have hfirst := hN N le_rfl
  rw [Prog.bind_apply] at hfirst
  cases ha : p N with
  | error e => rw [ha] at hfirst; cases hfirst
  | ok a =>
    obtain ⟨M, hM⟩ := hp.returns ha
    refine ⟨a, hp.returns ha, max N M, fun n hn => ?_⟩
    have hrun := hN n (le_trans (le_max_left _ _) hn)
    rwa [Prog.bind_apply, hM n (le_trans (le_max_right _ _) hn)] at hrun

theorem of_returns_lift {x : Except ε α} {a : α} (h : Returns (Prog.lift x) a) : x = .ok a := by
  obtain ⟨N, hN⟩ := h
  have hrun := hN N le_rfl
  cases x with
  | error e => cases hrun
  | ok b => cases hrun; rfl

theorem returns_lift_iff {x : Except ε α} {a : α} : Returns (Prog.lift x) a ↔ x = .ok a :=
  ⟨of_returns_lift, returns_lift⟩

theorem of_returns_pure {a b : α} (h : Returns (pure a : Prog ε α) b) : a = b :=
  (returns_pure a).unique h

/-! ### The iterations of a loop -/

/-- A run of a loop that ends with `r`; `label s` is what the iteration from `s` adds to the
trace, and the last one, which exits, adds nothing. -/
inductive Trace (body : σ → Prog ε (Ctl σ ρ)) (label : σ → List τ) : σ → List τ → ρ → Prop
  | exit {s : σ} {r : ρ} : Returns (body s) (.exit r) → Trace body label s [] r
  | next {s t : σ} {ts : List τ} {r : ρ} : Returns (body s) (.next t) → Trace body label t ts r →
      Trace body label s (label s ++ ts) r

variable {body : σ → Prog ε (Ctl σ ρ)} {label : σ → List τ}

theorem Trace.returns {s : σ} {ts : List τ} {r : ρ} (h : Trace body label s ts r) :
    Returns (loop body s) r := by
  induction h with
  | exit hbody => exact returns_loop_exit hbody
  | next hbody _ ih => exact returns_loop_next hbody ih

theorem exists_trace (hbody : ∀ s, Steady (body s)) (label : σ → List τ) {s : σ} {r : ρ}
    (h : Returns (loop body s) r) : ∃ ts, Trace body label s ts r := by
  obtain ⟨N, hN⟩ := h
  have hrun := hN N le_rfl
  clear hN
  induction N generalizing s with
  | zero => cases hrun
  | succ n ih =>
    simp only [loop, loop.go] at hrun
    cases hs : body s n with
    | error e => rw [hs] at hrun; cases hrun
    | ok c =>
      rw [hs] at hrun
      have hret := (hbody s).returns hs
      cases c with
      | exit r' =>
        cases hrun
        exact ⟨[], .exit hret⟩
      | next t =>
        obtain ⟨ts, hts⟩ := ih hrun
        exact ⟨_, .next hret hts⟩

/-- What every iteration keeps, from the start to the exit. -/
theorem of_returns_loop (hbody : ∀ s, Steady (body s)) {I : σ → Prop} {Q : ρ → Prop}
    (hnext : ∀ s t, I s → Returns (body s) (.next t) → I t)
    (hexit : ∀ s r, I s → Returns (body s) (.exit r) → Q r) {s : σ} {r : ρ} (hs : I s)
    (h : Returns (loop body s) r) : Q r := by
  obtain ⟨ts, hts⟩ := exists_trace hbody (fun _ => ([] : List Unit)) h
  induction hts with
  | exit hret => exact hexit _ _ hs hret
  | next hret hrest ih => exact ih (hnext _ _ hs hret) hrest.returns

def Ctl.state : Ctl σ σ → σ
  | .next s => s
  | .exit s => s

theorem loop_keeps {body : σ → Prog ε (Ctl σ σ)} (hbody : ∀ s, Steady (body s)) {I : σ → Prop}
    (hstep : ∀ s r, I s → Returns (body s) r → I r.state) {s t : σ} (hs : I s)
    (h : Returns (loop body s) t) : I t :=
  of_returns_loop hbody (fun s t hs hret => hstep s (.next t) hs hret)
    (fun s r hs hret => hstep s (.exit r) hs hret) hs h

theorem Iterates.keeps {I : σ → Prop} (hnext : ∀ s t, I s → Returns (body s) (.next t) → I t)
    {k : ℕ} {s t : σ} (h : Iterates body k s t) (hs : I s) : I t := by
  induction h with
  | zero => exact hs
  | succ _ hret ih => exact hnext _ _ (ih hs) hret

end GoodCommand.Fuel
