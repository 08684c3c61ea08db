import Mathlib

/-! Doubly linked rings. `next a` and `prev a` are what the pointers in the cell `a` hold, if there
is such a cell. -/

namespace GoodCommand

variable {A : Type} {next prev : A → Option A} {head a b x : A} {as bs : List A}

/-- The cells `head :: as` are linked to a ring, in this order. -/
structure LinkedRing (next prev : A → Option A) (head : A) (as : List A) : Prop where
  nodup : (head :: as).Nodup
  linked : (head :: (as ++ [head])).IsChain fun a b => next a = some b ∧ prev b = some a

namespace LinkedRing

theorem rotate (h : LinkedRing next prev head (as ++ a :: bs)) :
    LinkedRing next prev a (bs ++ head :: as) where
  nodup := by
    have hperm : (head :: as ++ a :: bs).Perm (a :: bs ++ head :: as) := List.perm_append_comm
    exact hperm.nodup_iff.mp h.nodup
  linked := by
    have hlinked := h.linked
    rw [List.append_assoc, List.cons_append, List.isChain_cons_split] at hlinked ⊢
    exact hlinked.symm

theorem reverse (h : LinkedRing next prev head as) : LinkedRing prev next head as.reverse where
  nodup := by
    have := h.nodup
    simpa using this
  linked := by
    have hlist : head :: (as.reverse ++ [head]) = (head :: (as ++ [head])).reverse := by simp
    rw [hlist, List.isChain_reverse]
    exact h.linked.imp fun a b hab => ⟨hab.2, hab.1⟩

theorem exists_next (h : LinkedRing next prev head as) (ha : a ∈ head :: as) :
    ∃ b ∈ head :: as, next a = some b ∧ prev b = some a := by
  have hhead : ∀ {head as}, LinkedRing next prev head as →
      ∃ b ∈ head :: as, next head = some b ∧ prev b = some head := fun {head as} h => by
    cases as with
    | nil => exact ⟨head, by simp, (List.isChain_cons_cons.mp h.linked).1⟩
    | cons c cs => exact ⟨c, by simp, (List.isChain_cons_cons.mp h.linked).1⟩
  rcases List.mem_cons.mp ha with rfl | ha
  · exact hhead h
  · obtain ⟨pre, post, rfl⟩ := List.append_of_mem ha
    obtain ⟨b, hb, hab⟩ := hhead h.rotate
    refine ⟨b, ?_, hab⟩
    simp only [List.mem_cons, List.mem_append] at hb ⊢
    tauto

theorem exists_prev (h : LinkedRing next prev head as) (ha : a ∈ head :: as) :
    ∃ b ∈ head :: as, prev a = some b ∧ next b = some a := by
  obtain ⟨b, hb, hab⟩ := h.reverse.exists_next (a := a) (by simpa using ha)
  exact ⟨b, by simpa using hb, hab⟩

variable [DecidableEq A]

theorem insert_head (h : LinkedRing next prev a as) (hx : x ∉ a :: as) (hb : next a = some b) :
    LinkedRing (Function.update (Function.update next x (some b)) a (some x))
      (Function.update (Function.update prev b (some x)) x (some a)) a (x :: as) where
  nodup := by
    have := h.nodup
    simp only [List.nodup_cons, List.mem_cons, not_or] at hx this ⊢
    tauto
  linked := by
    have hxa : x ≠ a := fun heq => hx (heq ▸ List.mem_cons_self)
    have hax : Function.update (Function.update next x (some b)) a (some x) a = some x ∧
        Function.update (Function.update prev b (some x)) x (some a) x = some a := by simp
    have hxb : Function.update (Function.update next x (some b)) a (some x) x = some b := by
      rw [Function.update_of_ne hxa, Function.update_self]
    cases as with
    | nil =>
      have hself := (List.isChain_cons_cons.mp h.linked).1.1
      obtain rfl : b = a := Option.some.inj (hb.symm.trans hself)
      have hprev : Function.update (Function.update prev b (some x)) x (some b) b = some x := by
        rw [Function.update_of_ne hxa.symm, Function.update_self]
      exact .cons_cons hax (.cons_cons ⟨hxb, hprev⟩ (.singleton _))
    | cons c cs =>
      have hlinked := h.linked
      rw [List.cons_append, List.isChain_cons_cons] at hlinked
      obtain ⟨⟨hc, -⟩, hrest⟩ := hlinked
      obtain rfl : b = c := Option.some.inj (hb.symm.trans hc)
      have hnd := h.nodup
      simp only [List.nodup_cons, List.mem_cons, not_or] at hnd hx
      have hprev : Function.update (Function.update prev b (some x)) x (some a) b = some x := by
        rw [Function.update_of_ne (Ne.symm hx.2.1), Function.update_self]
      refine .cons_cons hax (.cons_cons ⟨hxb, hprev⟩ (hrest.imp_of_mem_tail_imp ?_))
      -- behind `b` no pointer of the ring has changed
      rintro u v hu hv ⟨hnext, hprev⟩
      simp only [List.mem_cons, List.mem_append, List.not_mem_nil, or_false,
        List.tail_cons] at hu hv
      have hvb : v ≠ b := by
        rintro rfl
        tauto
      have hvx : v ≠ x := by
        rintro rfl
        tauto
      have hux : u ≠ x := by
        rintro rfl
        tauto
      have hua : u ≠ a := by
        rintro rfl
        exact hvb (Option.some.inj (hnext.symm.trans hb))
      rw [Function.update_of_ne hua, Function.update_of_ne hux, Function.update_of_ne hvx,
        Function.update_of_ne hvb]
      exact ⟨hnext, hprev⟩

end LinkedRing

/-! ### Insertion -/

section Insertion

variable [DecidableEq A]

def insertAfter (a x : A) : List A → List A
  | [] => []
  | b :: bs => if b = a then b :: x :: bs else b :: insertAfter a x bs

theorem insertAfter_append (h : a ∉ as) : insertAfter a x (as ++ a :: bs) = as ++ a :: x :: bs := by
  induction as with
  | nil => simp [insertAfter]
  | cons c cs ih =>
    obtain ⟨hne, hcs⟩ := List.ne_and_not_mem_of_not_mem_cons h
    rw [List.cons_append, insertAfter, if_neg hne.symm, ih hcs]
    rfl

theorem LinkedRing.insert (h : LinkedRing next prev head as) (ha : a ∈ head :: as)
    (hx : x ∉ head :: as) (hb : next a = some b) :
    ∃ as', insertAfter a x (head :: as) = head :: as' ∧ as'.Perm (x :: as) ∧
      LinkedRing (Function.update (Function.update next x (some b)) a (some x))
        (Function.update (Function.update prev b (some x)) x (some a)) head as' := by
  by_cases heq : a = head
  · subst heq
    exact ⟨x :: as, by simp [insertAfter], List.Perm.refl _, h.insert_head hx hb⟩
  · obtain ⟨pre, post, rfl⟩ := List.append_of_mem ((List.mem_cons.mp ha).resolve_left heq)
    have hpre : a ∉ head :: pre := by
      have := h.nodup
      simp only [List.nodup_cons, List.mem_append, List.mem_cons, List.nodup_append] at this ⊢
      tauto
    have hins : insertAfter a x ((head :: pre) ++ a :: post) = _ := insertAfter_append hpre
    have hfresh : x ∉ a :: (post ++ head :: pre) := by
      simp only [List.mem_cons, List.mem_append] at hx ⊢
      tauto
    have hring := h.rotate.insert_head hfresh hb
    rw [← List.cons_append] at hring
    refine ⟨pre ++ a :: x :: post, hins, ?_, hring.rotate⟩
    rw [List.append_cons pre a (x :: post), List.append_cons pre a post]
    exact List.perm_middle

end Insertion

end GoodCommand
