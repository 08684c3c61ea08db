import Mathlib

/-! Cells of a heap linked by pointers. `link a` is what the pointer in the cell `a` holds, if there
is such a cell; the pointer `none` is the null pointer. -/

namespace GoodCommand

variable {A : Type} {link link' : A → Option (Option A)}

/-- `Chain link p as q`: the links lead from `p` through the cells `as`, in order, to `q`. -/
def Chain (link : A → Option (Option A)) : Option A → List A → Option A → Prop
  | p, [], q => p = q
  | p, a :: as, q => p = some a ∧ ∃ r, link a = some r ∧ Chain link r as q

namespace Chain

variable {p q : Option A} {as bs : List A}

theorem cons_iff {a : A} : Chain link p (a :: as) q ↔
    p = some a ∧ ∃ r, link a = some r ∧ Chain link r as q := Iff.rfl

theorem append_iff : Chain link p (as ++ bs) q ↔ ∃ r, Chain link p as r ∧ Chain link r bs q := by
  induction as generalizing p with
  | nil => simp [Chain]
  | cons a as ih =>
    rw [List.cons_append, cons_iff]
    constructor
    · rintro ⟨rfl, r, hlink, hrest⟩
      obtain ⟨m, has, hbs⟩ := ih.mp hrest
      exact ⟨m, ⟨rfl, r, hlink, has⟩, hbs⟩
    · rintro ⟨m, ⟨rfl, r, hlink, has⟩, hbs⟩
      exact ⟨rfl, r, hlink, ih.mpr ⟨m, has, hbs⟩⟩

theorem congr (h : Chain link p as q) (heq : ∀ a ∈ as, link' a = link a) :
    Chain link' p as q := by
  induction as generalizing p with
  | nil => exact h
  | cons a as ih =>
    obtain ⟨hp, r, hlink, hrest⟩ := h
    exact ⟨hp, r, (heq a (by simp)).trans hlink,
      ih hrest fun b hb => heq b (List.mem_cons_of_mem _ hb)⟩

theorem behind {a : A} {r : Option A} (h : Chain link p (as ++ a :: bs) q)
    (ha : link a = some r) : Chain link r bs q := by
  obtain ⟨-, -, -, m, hm, hrest⟩ := append_iff.mp h
  rwa [Option.some.inj (ha.symm.trans hm)]

theorem exists_link (h : Chain link p as q) {a : A} (ha : a ∈ as) : ∃ r, link a = some r := by
  induction as generalizing p with
  | nil => cases ha
  | cons b as ih =>
    obtain ⟨-, r, hr, hrest⟩ := h
    rcases List.mem_cons.mp ha with rfl | ha
    · exact ⟨r, hr⟩
    · exact ih hrest ha

theorem start_unique {p' : Option A} (h : Chain link p as q) (h' : Chain link' p' as q) :
    p = p' := by
  cases as with
  | nil => exact h.trans h'.symm
  | cons a as => exact h.1.trans h'.1.symm

theorem mem_of_some {a : A} (h : Chain link (some a) as none) : a ∈ as := by
  cases as with
  | nil => cases h
  | cons b as =>
    obtain rfl := Option.some.inj h.1
    exact List.mem_cons_self

theorem move {first pre x : A} {ds xs : List A}
    (h : Chain link (some first) (first :: ds ++ pre :: x :: xs) q)
    (hx : link' x = link first) (hfirst : link' first = some (some x))
    (hpre : link' pre = link x) (hds : ∀ a ∈ ds, link' a = link a)
    (hxs : ∀ a ∈ xs, link' a = link a) :
    Chain link' (some first) (first :: x :: ds ++ pre :: xs) q := by
  obtain ⟨-, r, hr, hrest⟩ := h
  obtain ⟨m, hd, rfl, m', -, rfl, r', hr', hend⟩ := append_iff.mp hrest
  refine ⟨rfl, some x, hfirst, rfl, r, hx.trans hr, append_iff.mpr ⟨some pre, hd.congr hds, ?_⟩⟩
  exact ⟨rfl, r', hpre.trans hr', hend.congr hxs⟩

end Chain

end GoodCommand
