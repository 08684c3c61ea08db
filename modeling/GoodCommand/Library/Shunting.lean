import Mathlib

/-! Infix expressions over a precedence table, and the operator stack that turns them into postfix
form. Equal precedences associate to the left; the open parenthesis waits on the stack too. -/

namespace GoodCommand.Shunting

variable {ν σ : Type}

inductive Tree (ν σ : Type) where
  | leaf (v : ν)
  | node (o : σ) (l r : Tree ν σ)

inductive Item (ν σ : Type) where
  | num (v : ν)
  | op (o : σ)
  deriving DecidableEq

inductive Tok (ν σ : Type) where
  | num (v : ν)
  | op (o : σ)
  | left
  | right
  deriving DecidableEq

def Tree.postorder : Tree ν σ → List (Item ν σ)
  | .leaf v => [.num v]
  | .node o l r => l.postorder ++ r.postorder ++ [.op o]

/-- The precedences of the stack symbols, and the symbol that stands for an open parenthesis. -/
structure Table (σ : Type) where
  prec : σ → ℤ
  left : σ

/-- `Syn T p t ts`: the tokens `ts` spell the tree `t` with no bare operator below level `p`. -/
inductive Syn (T : Table σ) : ℤ → Tree ν σ → List (Tok ν σ) → Prop
  | leaf (p : ℤ) (v : ν) : Syn T p (.leaf v) [.num v]
  | paren {p q : ℤ} {t : Tree ν σ} {ts : List (Tok ν σ)} : T.prec T.left < q → Syn T q t ts →
      Syn T p t (.left :: ts ++ [.right])
  | node {p : ℤ} {o : σ} {l r : Tree ν σ} {ls rs : List (Tok ν σ)} : p ≤ T.prec o →
      Syn T (T.prec o) l ls → Syn T (T.prec o + 1) r rs → Syn T p (.node o l r) (ls ++ .op o :: rs)

/-! ### Evaluating a postfix sequence on a stack of values -/

section Eval

variable {α : Type} {m : Type → Type} [Monad m]

def Tree.evalM (num : ν → α) (apply : σ → α → α → m α) : Tree ν σ → m α
  | .leaf v => pure (num v)
  | .node o l r => do
    let a ← l.evalM num apply
    let b ← r.evalM num apply
    apply o a b

variable [LawfulMonad m]

/-- Running the postfix form pushes the value of the tree, operands being popped in reverse. -/
theorem Tree.foldlM_postorder {num : ν → α} {apply : σ → α → α → m α}
    {step : List α → Item ν σ → m (List α)}
    (hnum : ∀ v V, step V (.num v) = pure (num v :: V))
    (hop : ∀ o a b V, step (b :: a :: V) (.op o) = apply o a b >>= fun r => pure (r :: V))
    (t : Tree ν σ) (V : List α) :
    t.postorder.foldlM step V = t.evalM num apply >>= fun a => pure (a :: V) := by
  induction t generalizing V with
  | leaf v => simp [Tree.postorder, Tree.evalM, hnum]
  | node o l r ihl ihr => simp [Tree.postorder, Tree.evalM, List.foldlM_append, ihl, ihr, hop]

end Eval

/-! ### The operator stack, top first -/

variable (T : Table σ)

def Table.reduce (o : σ) (K : List σ) : List σ × List σ :=
  (K.takeWhile fun q => T.prec o ≤ T.prec q, o :: K.dropWhile fun q => T.prec o ≤ T.prec q)

def Table.close [DecidableEq σ] (K : List σ) : Option (List σ × List σ) :=
  if T.left ∈ K then some (K.takeWhile (· ≠ T.left), (K.dropWhile (· ≠ T.left)).tail) else none

def Table.feed [DecidableEq σ] : Tok ν σ → List σ → Option (List (Item ν σ) × List σ)
  | .num v, K => some ([.num v], K)
  | .op o, K => some ((T.reduce o K).1.map .op, (T.reduce o K).2)
  | .left, K => some ([], T.left :: K)
  | .right, K => (T.close K).map fun r => (r.1.map .op, r.2)

def Table.feedAll [DecidableEq σ] : List (Tok ν σ) → List σ → Option (List (Item ν σ) × List σ)
  | [], K => some ([], K)
  | t :: ts, K => do
    let (em, K) ← T.feed t K
    let (em', K) ← Table.feedAll ts K
    return (em ++ em', K)

variable {T}

theorem reduce_blocked {o : σ} {D K : List σ} (hD : ∀ q ∈ D, T.prec o ≤ T.prec q)
    (hK : ∀ q ∈ K.head?, T.prec q < T.prec o) : T.reduce o (D ++ K) = (D, o :: K) := by
  have hstop : K.takeWhile (fun q => T.prec o ≤ T.prec q) = [] ∧
      K.dropWhile (fun q => T.prec o ≤ T.prec q) = K := by
    cases K with
    | nil => simp
    | cons q K =>
      have hq : ¬ T.prec o ≤ T.prec q := not_le.mpr (hK q (by simp))
      simp [hq]
  have hall : ∀ q ∈ D, (fun q => decide (T.prec o ≤ T.prec q)) q = true := by
    intro q hq
    simpa using hD q hq
  unfold Table.reduce
  rw [List.takeWhile_append_of_pos hall, List.dropWhile_append_of_pos hall, hstop.1, hstop.2,
    List.append_nil]

variable [DecidableEq σ]

theorem close_eq_none_iff {K : List σ} : T.close K = none ↔ T.left ∉ K := by
  unfold Table.close
  split_ifs with h <;> simp [h]

theorem close_left {D K : List σ} (hD : T.left ∉ D) :
    T.close (D ++ T.left :: K) = some (D, K) := by
  have hall : ∀ q ∈ D, (fun q => decide (q ≠ T.left)) q = true := by
    intro q hq
    simpa using fun h : q = T.left => hD (h ▸ hq)
  unfold Table.close
  rw [if_pos (by simp), List.takeWhile_append_of_pos hall, List.dropWhile_append_of_pos hall]
  simp

theorem feedAll_append {ts us : List (Tok ν σ)} {K K' K'' : List σ} {em em' : List (Item ν σ)}
    (h : T.feedAll ts K = some (em, K')) (h' : T.feedAll us K' = some (em', K'')) :
    T.feedAll (ts ++ us) K = some (em ++ em', K'') := by
  induction ts generalizing K em with
  | nil =>
    simp only [Table.feedAll, Option.some.injEq, Prod.mk.injEq] at h
    obtain ⟨rfl, rfl⟩ := h
    simpa using h'
  | cons t ts ih =>
    simp only [Table.feedAll, Option.bind_eq_bind, Option.bind_eq_some_iff, Option.pure_def,
      Option.some.injEq, Prod.mk.injEq, Prod.exists] at h
    obtain ⟨e, K₁, ht, e', K₂, hts, rfl, rfl⟩ := h
    simp [Table.feedAll, ht, ih hts, List.append_assoc]

theorem feedAll_one {t : Tok ν σ} {K K' : List σ} {em : List (Item ν σ)}
    (h : T.feed t K = some (em, K')) : T.feedAll [t] K = some (em, K') := by
  simp [Table.feedAll, h]

/-- A spelled expression leaves on the stack operators `D` of its own level only, and what it has
put out, followed by `D`, is its postfix form. -/
theorem feedAll_syn {p : ℤ} {t : Tree ν σ} {ts : List (Tok ν σ)} (h : Syn T p t ts)
    {K : List σ} (hK : ∀ q ∈ K.head?, T.prec q < p) :
    ∃ em D, T.feedAll ts K = some (em, D ++ K) ∧ em ++ D.map .op = t.postorder ∧
      ∀ q ∈ D, p ≤ T.prec q := by
  induction h generalizing K with
  | leaf p v => exact ⟨[.num v], [], by simp [Table.feedAll, Table.feed], rfl, by simp⟩
  | @paren p q t ts hq _ ih =>
    obtain ⟨em, D, hrun, hpost, hD⟩ := ih (K := T.left :: K) (by simpa using hq)
    have hleft : T.left ∉ D := fun hmem => absurd (hD _ hmem) (not_le.mpr hq)
    have hclose : T.feed (ν := ν) .right (D ++ T.left :: K) = some (D.map .op, K) := by
      simp [Table.feed, close_left hleft]
    refine ⟨em ++ D.map .op, [], ?_, by simpa using hpost, by simp⟩
    have hopen : T.feedAll (ν := ν) [.left] K = some ([], T.left :: K) := by
      simp [Table.feedAll, Table.feed]
    exact feedAll_append (feedAll_append hopen hrun) (feedAll_one hclose)
  | @node p o l r ls rs hp _ _ ihl ihr =>
    have hKo : ∀ q ∈ K.head?, T.prec q < T.prec o := fun q hq => lt_of_lt_of_le (hK q hq) hp
    obtain ⟨eml, Dl, hl, hlpost, hDl⟩ := ihl hKo
    obtain ⟨emr, Dr, hr, hrpost, hDr⟩ := ihr (K := o :: K) (by simp)
    have hop : T.feed (ν := ν) (.op o) (Dl ++ K) = some (Dl.map .op, o :: K) := by
      simp [Table.feed, reduce_blocked hDl hKo]
    refine ⟨eml ++ (Dl.map .op ++ emr), Dr ++ [o], ?_, ?_, ?_⟩
    · have hrest := feedAll_append (feedAll_one hop) hr
      simpa [List.append_assoc] using feedAll_append hl hrest
    · calc eml ++ (Dl.map Item.op ++ emr) ++ (Dr ++ [o]).map Item.op
          = (eml ++ Dl.map .op) ++ (emr ++ Dr.map .op) ++ [.op o] := by simp
        _ = (Tree.node o l r).postorder := by rw [hlpost, hrpost]; rfl
    · intro q hq
      rcases List.mem_append.mp hq with hq | hq
      · exact hp.trans (by have := hDr q hq; omega)
      · rw [List.mem_singleton.mp hq]; exact hp

end GoodCommand.Shunting
