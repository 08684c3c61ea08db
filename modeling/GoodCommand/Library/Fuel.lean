import Mathlib

/-! Programs that may loop, fault or stop without a value, run with fuel. What a run does is stated
with `Returns`, `Faults` and `Diverges`, which hide the amount of fuel. -/

namespace GoodCommand.Fuel

inductive Stop (ε : Type) where
  | fault (e : ε)
  | outOfFuel
  deriving DecidableEq

/-- A program with faults `ε` and values `α`; the argument bounds the iterations of its loops. -/
def Prog (ε α : Type) := ℕ → Except (Stop ε) α

namespace Prog

variable {ε α β : Type}

protected def pure (a : α) : Prog ε α := fun _ => .ok a

protected def bind (p : Prog ε α) (f : α → Prog ε β) : Prog ε β := fun n =>
  match p n with
  | .ok a => f a n
  | .error e => .error e

instance : Monad (Prog ε) where
  pure := Prog.pure
  bind := Prog.bind

def lift (x : Except ε α) : Prog ε α := fun _ =>
  match x with
  | .ok a => .ok a
  | .error e => .error (.fault e)

instance : MonadLift (Except ε) (Prog ε) where
  monadLift := lift

theorem pure_apply (a : α) (n : ℕ) : (pure a : Prog ε α) n = .ok a := rfl

theorem bind_apply (p : Prog ε α) (f : α → Prog ε β) (n : ℕ) :
    (p >>= f) n = match p n with
      | .ok a => f a n
      | .error e => .error e := rfl

@[simp] theorem pure_bind (a : α) (f : α → Prog ε β) : (pure a >>= f : Prog ε β) = f a := rfl

@[simp] theorem liftM_eq_lift (x : Except ε α) : (liftM x : Prog ε α) = lift x := rfl

@[simp] theorem lift_ok (a : α) : lift (Except.ok a : Except ε α) = pure a := rfl

end Prog

variable {ε α β σ ρ : Type}

/-- `p` ends with the value `a`, whatever fuel it is given past some amount. -/
def Returns (p : Prog ε α) (a : α) : Prop := ∃ N, ∀ n, N ≤ n → p n = .ok a

def Faults (p : Prog ε α) (e : ε) : Prop := ∃ N, ∀ n, N ≤ n → p n = .error (.fault e)

/-- No amount of fuel lets `p` end. -/
def Diverges (p : Prog ε α) : Prop := ∀ n, p n = .error .outOfFuel

theorem Returns.unique {p : Prog ε α} {a b : α} (ha : Returns p a) (hb : Returns p b) : a = b := by
  obtain ⟨m, hm⟩ := ha
  obtain ⟨n, hn⟩ := hb
  have h := (hm (max m n) (le_max_left _ _)).symm.trans (hn (max m n) (le_max_right _ _))
  exact Except.ok.inj h

theorem Faults.unique {p : Prog ε α} {e e' : ε} (he : Faults p e) (he' : Faults p e') : e = e' := by
  obtain ⟨m, hm⟩ := he
  obtain ⟨n, hn⟩ := he'
  have h := (hm (max m n) (le_max_left _ _)).symm.trans (hn (max m n) (le_max_right _ _))
  exact Stop.fault.inj (Except.error.inj h)

theorem Returns.not_faults {p : Prog ε α} {a : α} {e : ε} (ha : Returns p a) : ¬ Faults p e := by
  rintro ⟨n, hn⟩
  obtain ⟨m, hm⟩ := ha
  have h := (hm (max m n) (le_max_left _ _)).symm.trans (hn (max m n) (le_max_right _ _))
  cases h

theorem Returns.not_diverges {p : Prog ε α} {a : α} (ha : Returns p a) : ¬ Diverges p := by
  intro hd
  obtain ⟨m, hm⟩ := ha
  have h := (hm m le_rfl).symm.trans (hd m)
  cases h

theorem Faults.not_diverges {p : Prog ε α} {e : ε} (he : Faults p e) : ¬ Diverges p := by
  intro hd
  obtain ⟨m, hm⟩ := he
  have h := (hm m le_rfl).symm.trans (hd m)
  cases h

theorem returns_pure (a : α) : Returns (pure a : Prog ε α) a := ⟨0, fun _ _ => rfl⟩

theorem returns_of_eq {p : Prog ε α} {a : α} (h : p = pure a) : Returns p a := h ▸ returns_pure a

theorem returns_lift {x : Except ε α} {a : α} (h : x = .ok a) : Returns (Prog.lift x) a :=
  ⟨0, fun _ _ => by rw [h]; rfl⟩

theorem faults_lift {x : Except ε α} {e : ε} (h : x = .error e) : Faults (Prog.lift x) e :=
  ⟨0, fun _ _ => by rw [h]; rfl⟩

theorem Returns.bind {p : Prog ε α} {f : α → Prog ε β} {a : α} {b : β}
    (hp : Returns p a) (hf : Returns (f a) b) : Returns (p >>= f) b := by
  obtain ⟨m, hm⟩ := hp
  obtain ⟨n, hn⟩ := hf
  refine ⟨max m n, fun k hk => ?_⟩
  rw [Prog.bind_apply, hm k (le_trans (le_max_left _ _) hk)]
  exact hn k (le_trans (le_max_right _ _) hk)

theorem Returns.bind_iff {p : Prog ε α} {f : α → Prog ε β} {a : α} {b : β} (hp : Returns p a) :
    Returns (p >>= f) b ↔ Returns (f a) b := by
  refine ⟨fun ⟨n, hn⟩ => ?_, hp.bind⟩
  obtain ⟨m, hm⟩ := hp
  refine ⟨max m n, fun k hk => ?_⟩
  have hrun := hn k (le_trans (le_max_right _ _) hk)
  rwa [Prog.bind_apply, hm k (le_trans (le_max_left _ _) hk)] at hrun

theorem Faults.bind {p : Prog ε α} {f : α → Prog ε β} {e : ε} (hp : Faults p e) :
    Faults (p >>= f) e := by
  obtain ⟨m, hm⟩ := hp
  exact ⟨m, fun k hk => by rw [Prog.bind_apply, hm k hk]⟩

theorem Returns.bind_faults {p : Prog ε α} {f : α → Prog ε β} {a : α} {e : ε}
    (hp : Returns p a) (hf : Faults (f a) e) : Faults (p >>= f) e := by
  obtain ⟨m, hm⟩ := hp
  obtain ⟨n, hn⟩ := hf
  refine ⟨max m n, fun k hk => ?_⟩
  rw [Prog.bind_apply, hm k (le_trans (le_max_left _ _) hk)]
  exact hn k (le_trans (le_max_right _ _) hk)

theorem Diverges.bind {p : Prog ε α} {f : α → Prog ε β} (hp : Diverges p) : Diverges (p >>= f) :=
  fun n => by rw [Prog.bind_apply, hp n]

/-- `p` does what the straight-line computation `x` does: it returns a value that `R` relates to
the value of `x`, or ends in the fault of `x`. -/
def Follows (p : Prog ε α) (x : Except ε β) (R : β → α → Prop) : Prop :=
  match x with
  | .ok b => ∃ a, Returns p a ∧ R b a
  | .error e => Faults p e

theorem Follows.ok {p : Prog ε α} {x : Except ε β} {R : β → α → Prop} {b : β}
    (h : Follows p x R) (hx : x = .ok b) : ∃ a, Returns p a ∧ R b a := by
  rwa [hx] at h

theorem Follows.error {p : Prog ε α} {x : Except ε β} {R : β → α → Prop} {e : ε}
    (h : Follows p x R) (hx : x = .error e) : Faults p e := by
  rwa [hx] at h

theorem Follows.bind {γ δ : Type} {p : Prog ε α} {f : α → Prog ε γ} {x : Except ε β}
    {y : β → Except ε δ} {R : β → α → Prop} {S : δ → γ → Prop} (hp : Follows p x R)
    (hf : ∀ b a, R b a → Follows (f a) (y b) S) : Follows (p >>= f) (x >>= y) S := by
  cases x with
  | error e => exact Faults.bind hp
  | ok b =>
    obtain ⟨a, ha, hR⟩ := hp
    have hrest := hf b a hR
    change Follows (p >>= f) (y b) S
    cases hy : y b with
    | error e => exact ha.bind_faults (hrest.error hy)
    | ok d =>
      obtain ⟨c, hc, hS⟩ := hrest.ok hy
      exact ⟨c, ha.bind hc, hS⟩

theorem Follows.map_bind {γ : Type} {p : Prog ε α} {f : α → Prog ε γ} {x : Except ε β}
    {R : β → α → Prop} {S : β → γ → Prop} (hp : Follows p x R)
    (hf : ∀ b a, R b a → ∃ c, Returns (f a) c ∧ S b c) : Follows (p >>= f) x S := by
  cases x with
  | error e => exact Faults.bind hp
  | ok b =>
    obtain ⟨a, ha, hR⟩ := hp
    obtain ⟨c, hc, hS⟩ := hf b a hR
    exact ⟨c, ha.bind hc, hS⟩

/-! ### Loops -/

inductive Ctl (σ ρ : Type) where
  | next (s : σ)
  | exit (r : ρ)

/-- Repeats `body` until it exits. Every iteration costs one unit of fuel. -/
def loop (body : σ → Prog ε (Ctl σ ρ)) (s : σ) : Prog ε ρ := fun n => go n s
where
  go : ℕ → σ → Except (Stop ε) ρ
    | 0, _ => .error .outOfFuel
    | n + 1, s =>
      match body s n with
      | .ok (.next t) => go n t
      | .ok (.exit r) => .ok r
      | .error e => .error e

section Loop

variable {body : σ → Prog ε (Ctl σ ρ)}

theorem returns_loop_exit {s : σ} {r : ρ} (h : Returns (body s) (.exit r)) :
    Returns (loop body s) r := by
  obtain ⟨m, hm⟩ := h
  refine ⟨m + 1, fun n hn => ?_⟩
  obtain ⟨k, rfl⟩ : ∃ k, n = k + 1 := ⟨n - 1, by omega⟩
  simp only [loop, loop.go, hm k (by omega)]

theorem returns_loop_next {s t : σ} {r : ρ} (h : Returns (body s) (.next t))
    (ht : Returns (loop body t) r) : Returns (loop body s) r := by
  obtain ⟨m, hm⟩ := h
  obtain ⟨m', hm'⟩ := ht
  refine ⟨max m m' + 1, fun n hn => ?_⟩
  obtain ⟨k, rfl⟩ : ∃ k, n = k + 1 := ⟨n - 1, by omega⟩
  simp only [loop, loop.go, hm k (by omega)]
  exact hm' k (by omega)

theorem faults_loop {s : σ} {e : ε} (h : Faults (body s) e) : Faults (loop body s) e := by
  obtain ⟨m, hm⟩ := h
  refine ⟨m + 1, fun n hn => ?_⟩
  obtain ⟨k, rfl⟩ : ∃ k, n = k + 1 := ⟨n - 1, by omega⟩
  simp only [loop, loop.go, hm k (by omega)]

theorem faults_loop_next {s t : σ} {e : ε} (h : Returns (body s) (.next t))
    (ht : Faults (loop body t) e) : Faults (loop body s) e := by
  obtain ⟨m, hm⟩ := h
  obtain ⟨m', hm'⟩ := ht
  refine ⟨max m m' + 1, fun n hn => ?_⟩
  obtain ⟨k, rfl⟩ : ∃ k, n = k + 1 := ⟨n - 1, by omega⟩
  simp only [loop, loop.go, hm k (by omega)]
  exact hm' k (by omega)

theorem Follows.loop_next {s t : σ} {x : Except ε β} {R : β → ρ → Prop}
    (h : Returns (body s) (.next t)) (ht : Follows (loop body t) x R) :
    Follows (loop body s) x R := by
  cases x with
  | ok b =>
    obtain ⟨r, hr, hR⟩ := ht
    exact ⟨r, returns_loop_next h hr, hR⟩
  | error e => exact faults_loop_next h ht

theorem diverges_loop_next {s t : σ} (h : body s = pure (.next t)) (ht : Diverges (loop body t)) :
    Diverges (loop body s) := by
  intro n
  cases n with
  | zero => rfl
  | succ n =>
    simp only [loop, loop.go, h, Prog.pure_apply]
    exact ht n

/-- A loop whose every iteration goes on, from an invariant back into it, never ends. -/
theorem diverges_loop (I : σ → Prop)
    (hstep : ∀ s, I s → ∃ t, I t ∧ ∀ n, body s n = .ok (.next t)) {s : σ} (hs : I s) :
    Diverges (loop body s) := by
  intro n
  induction n generalizing s with
  | zero => rfl
  | succ n ih =>
    obtain ⟨t, ht, hb⟩ := hstep s hs
    simp only [loop, loop.go, hb n]
    exact ih ht

/-- A loop that keeps `I` and lowers `μ` as long as it goes on ends with a value of `Q`. -/
theorem returns_loop_of_inv (I : σ → Prop) (μ : σ → ℕ) {Q : ρ → Prop}
    (hstep : ∀ s, I s → (∃ r, Returns (body s) (.exit r) ∧ Q r) ∨
      ∃ t, Returns (body s) (.next t) ∧ I t ∧ μ t < μ s) {s : σ} (hs : I s) :
    ∃ r, Returns (loop body s) r ∧ Q r := by
  induction hm : μ s using Nat.strong_induction_on generalizing s with
  | _ m ih =>
    rcases hstep s hs with ⟨r, hr, hQ⟩ | ⟨t, ht, hI, hlt⟩
    · exact ⟨r, returns_loop_exit hr, hQ⟩
    · obtain ⟨r, hr, hQ⟩ := ih (μ t) (hm ▸ hlt) hI rfl
      exact ⟨r, returns_loop_next ht hr, hQ⟩

/-- `k` iterations of `body` lead from `s` to `t`. -/
inductive Iterates (body : σ → Prog ε (Ctl σ ρ)) : ℕ → σ → σ → Prop
  | zero (s : σ) : Iterates body 0 s s
  | succ {k : ℕ} {s t u : σ} : Iterates body k s t → Returns (body t) (.next u) →
      Iterates body (k + 1) s u

theorem Iterates.head {k : ℕ} {s t u : σ} (h : Returns (body s) (.next t))
    (ht : Iterates body k t u) : Iterates body (k + 1) s u := by
  induction ht with
  | zero => exact .succ (.zero s) h
  | succ _ hb ih => exact .succ (ih h) hb

theorem Iterates.returns_loop {k : ℕ} {s t : σ} {r : ρ} (h : Iterates body k s t)
    (ht : Returns (loop body t) r) : Returns (loop body s) r := by
  induction h with
  | zero => exact ht
  | succ _ hb ih => exact ih (returns_loop_next hb ht)

theorem Iterates.faults_loop {k : ℕ} {s t : σ} {e : ε} (h : Iterates body k s t)
    (ht : Faults (loop body t) e) : Faults (loop body s) e := by
  induction h with
  | zero => exact ht
  | succ _ hb ih => exact ih (faults_loop_next hb ht)

/-! ### Progress -/

/-- One iteration ends the loop, by an exit or by a fault of `E`, or goes on with `I` and a larger
`μ`. -/
def Turn (body : σ → Prog ε (Ctl σ ρ)) (I : σ → Prop) (μ : σ → ℕ) (E : ε → Prop) (s : σ) : Prop :=
  (∃ r, Returns (body s) (.exit r)) ∨ (∃ e, Faults (body s) e ∧ E e) ∨
    ∃ t, Returns (body s) (.next t) ∧ I t ∧ μ s < μ t

variable {I : σ → Prop} {μ : σ → ℕ} {E : ε → Prop}

theorem Turn.not_diverges {s : σ} (h : Turn body I μ E s) : ¬ Diverges (body s) := by
  rcases h with ⟨r, hr⟩ | ⟨e, he, -⟩ | ⟨t, ht, -⟩
  · exact hr.not_diverges
  · exact he.not_diverges
  · exact ht.not_diverges

theorem Turn.fault {s : σ} {e : ε} (h : Turn body I μ E s) (he : Faults (body s) e) : E e := by
  rcases h with ⟨r, hr⟩ | ⟨e', he', hE⟩ | ⟨t, ht, -⟩
  · exact absurd he hr.not_faults
  · exact he.unique he' ▸ hE
  · exact absurd he ht.not_faults

theorem Turn.next {s t : σ} (h : Turn body I μ E s) (ht : Returns (body s) (.next t)) :
    I t ∧ μ s < μ t := by
  rcases h with ⟨r, hr⟩ | ⟨e, he, -⟩ | ⟨u, hu, hI, hlt⟩
  · cases hr.unique ht
  · exact absurd he ht.not_faults
  · cases hu.unique ht
    exact ⟨hI, hlt⟩

/-- Whatever is reached from the invariant keeps it, and no more iterations are made than `μ` has
grown. -/
theorem Iterates.turns (hturn : ∀ s, I s → Turn body I μ E s) {k : ℕ} {s t : σ}
    (h : Iterates body k s t) (hs : I s) : I t ∧ k + μ s ≤ μ t := by
  induction h with
  | zero => exact ⟨hs, by simp⟩
  | succ _ hb ih =>
    obtain ⟨hI, hle⟩ := ih hs
    obtain ⟨hI', hlt⟩ := (hturn _ hI).next hb
    exact ⟨hI', by omega⟩

theorem loop_ends (hturn : ∀ s, I s → Turn body I μ E s) {N : ℕ} (hbound : ∀ s, I s → μ s ≤ N)
    {s : σ} (hs : I s) :
    (∃ r, Returns (loop body s) r) ∨ ∃ e, Faults (loop body s) e ∧ E e := by
  induction hm : N - μ s using Nat.strong_induction_on generalizing s with
  | _ m ih =>
    rcases hturn s hs with ⟨r, hr⟩ | ⟨e, he, hE⟩ | ⟨t, ht, hI, hlt⟩
    · exact .inl ⟨r, returns_loop_exit hr⟩
    · exact .inr ⟨e, faults_loop he, hE⟩
    · have hN := hbound t hI
      rcases ih (N - μ t) (by omega) hI rfl with ⟨r, hr⟩ | ⟨e, he, hE⟩
      · exact .inl ⟨r, returns_loop_next ht hr⟩
      · exact .inr ⟨e, faults_loop_next ht he, hE⟩

/-- Every iteration of the loop ends it or raises `μ`, and the loop ends after at most `N`
iterations; `E` holds of the faults that may end it. -/
structure Progresses (body : σ → Prog ε (Ctl σ ρ)) (μ : σ → ℕ) (E : ε → Prop) (N : ℕ) (s : σ) :
    Prop where
  turn : ∀ k t, Iterates body k s t → Turn body (fun _ => True) μ E t
  bound : ∀ k t, Iterates body k s t → k ≤ N
  ends : (∃ r, Returns (loop body s) r) ∨ ∃ e, Faults (loop body s) e ∧ E e

theorem Progresses.of_turns (hturn : ∀ s, I s → Turn body I μ E s) {N : ℕ}
    (hbound : ∀ s, I s → μ s ≤ N) {s : σ} (hs : I s) : Progresses body μ E N s where
  turn k t ht := by
    rcases hturn t (ht.turns hturn hs).1 with hr | he | ⟨u, hu, -, hlt⟩
    · exact .inl hr
    · exact .inr (.inl he)
    · exact .inr (.inr ⟨u, hu, trivial, hlt⟩)
  bound k t ht := by
    obtain ⟨hI, hle⟩ := ht.turns hturn hs
    have := hbound t hI
    omega
  ends := loop_ends hturn hbound hs

end Loop

end GoodCommand.Fuel
