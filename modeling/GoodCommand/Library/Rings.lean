import GoodCommand.Library.LinkedRing

/-! Rings as the cycles of a permutation that takes every cell to its successor. Two cells that
exchange their successors split the ring that they are on, or join the two that they are on. -/

namespace GoodCommand

variable {A : Type} {σ σ' : Equiv.Perm A} {a b c head x : A} {as bs cs xs ys : List A}

/-- The successors lead from `head` through the cells `xs`, in order, back to `head`. -/
def RingAt (σ : Equiv.Perm A) (head : A) (xs : List A) : Prop :=
  LinkedRing (fun a => some (σ a)) (fun a => some (σ⁻¹ a)) head xs

theorem ringAt_iff : RingAt σ head xs ↔
    (head :: xs).Nodup ∧ (head :: (xs ++ [head])).IsChain fun a b => σ a = b := by
  have hlinked : ∀ a b, (some (σ a) = some b ∧ some (σ⁻¹ b) = some a) ↔ σ a = b := by
    intro a b
    rw [Option.some.injEq, Option.some.injEq, Equiv.Perm.inv_eq_iff_eq]
    exact ⟨And.left, fun h => ⟨h, h.symm⟩⟩
  constructor
  · exact fun h => ⟨h.nodup, h.linked.imp fun a b => (hlinked a b).mp⟩
  · exact fun h => ⟨h.1, h.2.imp fun a b => (hlinked a b).mpr⟩

theorem ringAt_nil_iff : RingAt σ a [] ↔ σ a = a := by simp [ringAt_iff]

namespace RingAt

theorem nodup (h : RingAt σ head xs) : (head :: xs).Nodup := LinkedRing.nodup h

theorem chain (h : RingAt σ head xs) : (head :: (xs ++ [head])).IsChain fun a b => σ a = b :=
  (ringAt_iff.mp h).2

theorem rotate (h : RingAt σ head (as ++ a :: bs)) : RingAt σ a (bs ++ head :: as) :=
  LinkedRing.rotate h

theorem inv (h : RingAt σ head xs) : RingAt σ⁻¹ head xs.reverse := by
  have hrev := LinkedRing.reverse h
  unfold RingAt
  rwa [inv_inv]

theorem apply_mem (h : RingAt σ head xs) (ha : a ∈ head :: xs) : σ a ∈ head :: xs := by
  obtain ⟨b, hb, hab, -⟩ := LinkedRing.exists_next h ha
  rwa [Option.some.inj hab]

theorem apply_mem_iff (h : RingAt σ head xs) : σ a ∈ head :: xs ↔ a ∈ head :: xs := by
  refine ⟨fun ha => ?_, h.apply_mem⟩
  have hmem := h.inv.apply_mem (a := σ a) (by simpa using ha)
  simpa using hmem

theorem apply_head (h : RingAt σ head (x :: xs)) : σ head = x :=
  (List.isChain_cons_cons.mp h.chain).1

theorem apply_getLastD (h : RingAt σ head (as ++ bs)) : σ (as.getLastD head) = bs.headD head := by
  have hfirst : ∀ {a bs}, (a :: (bs ++ [head])).IsChain (fun a b => σ a = b) →
      σ a = bs.headD head := by
    intro a bs hchain
    cases bs <;> exact (List.isChain_cons_cons.mp hchain).1
  cases as using List.reverseRecOn with
  | nil => exact hfirst h.chain
  | append_singleton as p =>
    have hchain := h.chain
    rw [List.append_assoc, List.append_assoc, List.singleton_append,
      List.isChain_cons_split] at hchain
    rw [List.getLastD_concat]
    exact hfirst hchain.2

theorem relink (h : (a :: (as ++ [c])).IsChain fun a b => σ a = b) (hb : σ' b = σ a)
    (heq : ∀ x ∈ as, σ' x = σ x) : (b :: (as ++ [c])).IsChain fun a b => σ' a = b := by
  cases as with
  | nil =>
    rw [List.nil_append, List.isChain_cons_cons] at h ⊢
    exact ⟨hb.trans h.1, .singleton _⟩
  | cons d as =>
    rw [List.cons_append, List.isChain_cons_cons] at h ⊢
    refine ⟨hb.trans h.1, ?_⟩
    have hlast := h.2
    rw [← List.cons_append, List.isChain_append] at hlast ⊢
    refine ⟨hlast.1.imp_of_mem_imp fun x y hx _ hxy => (heq x hx).trans hxy, .singleton _,
      fun x hx y hy => ?_⟩
    exact (heq x (List.mem_of_mem_getLast? hx)).trans (hlast.2.2 x hx y hy)

theorem congr (h : RingAt σ head xs) (heq : ∀ a ∈ head :: xs, σ' a = σ a) : RingAt σ' head xs :=
  ringAt_iff.mpr ⟨h.nodup, relink h.chain (heq head List.mem_cons_self)
    fun x hx => heq x (List.mem_cons_of_mem _ hx)⟩

theorem unique (h : RingAt σ head xs) (h' : RingAt σ head ys) : xs = ys := by
  have hprefix : ∀ {a xs ys}, (a :: (xs ++ [head])).IsChain (fun a b => σ a = b) →
      (a :: (ys ++ [head])).IsChain (fun a b => σ a = b) → head ∉ xs → head ∉ ys → xs = ys := by
    intro a xs ys hxs hys hx hy
    induction xs generalizing a ys with
    | nil =>
      cases ys with
      | nil => rfl
      | cons y ys =>
        have hback := (List.isChain_cons_cons.mp hxs).1
        have hnext := (List.isChain_cons_cons.mp hys).1
        exact absurd (List.mem_cons.mpr (.inl (hback.symm.trans hnext))) hy
    | cons x xs ih =>
      rw [List.cons_append, List.isChain_cons_cons] at hxs
      cases ys with
      | nil =>
        have hback := (List.isChain_cons_cons.mp hys).1
        exact absurd (List.mem_cons.mpr (.inl (hback.symm.trans hxs.1))) hx
      | cons y ys =>
        rw [List.cons_append, List.isChain_cons_cons] at hys
        obtain rfl : x = y := hxs.1.symm.trans hys.1
        rw [ih hxs.2 hys.2 (fun hmem => hx (List.mem_cons_of_mem _ hmem))
          fun hmem => hy (List.mem_cons_of_mem _ hmem)]
  exact hprefix h.chain h'.chain (List.nodup_cons.mp h.nodup).1 (List.nodup_cons.mp h'.nodup).1

theorem eq_nil (h : RingAt σ head xs) (ha : a ∈ head :: xs) (hself : σ a = a) :
    a = head ∧ xs = [] := by
  rcases List.mem_cons.mp ha with rfl | ha
  · exact ⟨rfl, h.unique (ringAt_nil_iff.mpr hself)⟩
  · obtain ⟨pre, post, rfl⟩ := List.append_of_mem ha
    have hnil := h.rotate.unique (ringAt_nil_iff.mpr hself)
    simp at hnil

theorem apply_head_eq_iff (h : RingAt σ head xs) : σ head = head ↔ xs = [] := by
  refine ⟨fun hself => (h.eq_nil List.mem_cons_self hself).2, ?_⟩
  rintro rfl
  exact ringAt_nil_iff.mp h

theorem disjoint (h : RingAt σ a as) (h' : RingAt σ b bs) (hb : b ∉ a :: as) :
    (a :: as).Disjoint (b :: bs) := by
  intro c hc hc'
  have hout : ∀ {y : A} {ys}, (y :: (ys ++ [b])).IsChain (fun a b => σ a = b) → y ∈ a :: as →
      b ∈ a :: as := by
    intro y ys hys hy
    induction ys generalizing y with
    | nil => exact (List.isChain_cons_cons.mp hys).1 ▸ h.apply_mem hy
    | cons z zs ih =>
      rw [List.cons_append, List.isChain_cons_cons] at hys
      exact ih hys.2 (hys.1 ▸ h.apply_mem hy)
  rcases List.mem_cons.mp hc' with rfl | hc'
  · exact hb hc
  · obtain ⟨pre, post, rfl⟩ := List.append_of_mem hc'
    have hchain := h'.chain
    rw [List.append_assoc, List.cons_append, List.isChain_cons_split] at hchain
    exact hb (hout hchain.2 hc)

end RingAt

theorem iterate_mem {S : Finset A} (hS : ∀ x ∉ S, σ x = x) (ha : a ∈ S) (n : ℕ) :
    σ^[n] a ∈ S := by
  induction n with
  | zero => exact ha
  | succ n ih =>
    rw [Function.iterate_succ_apply']
    by_contra hout
    have hfix : σ (σ^[n] a) = σ^[n] a := σ.injective (hS _ hout)
    rw [hfix] at hout
    exact hout ih

/-- Where all but finitely many cells are alone, every cell is on a ring. -/
theorem exists_ringAt {S : Finset A} (hS : ∀ x ∉ S, σ x = x) (a : A) : ∃ xs, RingAt σ a xs := by
  by_cases ha : a ∈ S
  · obtain ⟨i, j, hne, heq⟩ := Finite.exists_ne_map_eq_of_infinite
      fun n : ℕ => (⟨σ^[n] a, iterate_mem hS ha n⟩ : S)
    have hper : a ∈ Function.periodicPts σ := by
      have heq : σ^[i] a = σ^[j] a := congrArg Subtype.val heq
      rcases Nat.lt_or_gt_of_ne hne with hlt | hlt
      · obtain ⟨n, rfl⟩ := Nat.exists_eq_add_of_lt hlt
        rw [add_assoc, Function.iterate_add_apply] at heq
        exact Function.mk_mem_periodicPts n.succ_pos (σ.injective.iterate i heq).symm
      · obtain ⟨n, rfl⟩ := Nat.exists_eq_add_of_lt hlt
        rw [add_assoc, Function.iterate_add_apply] at heq
        exact Function.mk_mem_periodicPts n.succ_pos (σ.injective.iterate j heq)
    obtain ⟨n, hn⟩ := Nat.exists_eq_succ_of_ne_zero
      (Function.minimalPeriod_pos_of_mem_periodicPts hper).ne'
    have hinj := Function.iterate_injOn_Iio_minimalPeriod (f := σ) (x := a)
    have hback := Function.iterate_minimalPeriod (f := σ) (x := a)
    rw [hn] at hinj hback
    have hcons : a :: (List.range n).map (fun i => σ^[i + 1] a) =
        (List.range (n + 1)).map (σ^[·] a) := by
      rw [List.range_succ_eq_map, List.map_cons, List.map_map]
      rfl
    refine ⟨(List.range n).map fun i => σ^[i + 1] a, ringAt_iff.mpr ⟨?_, ?_⟩⟩
    · rw [hcons]
      exact List.nodup_range.map_on fun i hi j hj =>
        hinj (List.mem_range.mp hi) (List.mem_range.mp hj)
    · have hlast : a :: ((List.range n).map (fun i => σ^[i + 1] a) ++ [a]) =
          (List.range (n + 2)).map (σ^[·] a) := by
        rw [← List.cons_append, hcons, List.range_succ (n := n + 1), List.map_append,
          List.map_singleton, hback]
      rw [hlast, List.isChain_map, List.isChain_range_succ]
      exact fun i _ => (Function.iterate_succ_apply' σ i a).symm
  · exact ⟨[], ringAt_nil_iff.mpr (hS a ha)⟩

theorem RingAt.conj (h : RingAt σ head xs) (π : Equiv.Perm A) :
    RingAt (π * σ * π⁻¹) (π head) (xs.map π) := by
  refine ringAt_iff.mpr ⟨?_, ?_⟩
  · rw [← List.map_cons]
    exact h.nodup.map π.injective
  · have hmap : π head :: (xs.map π ++ [π head]) = (head :: (xs ++ [head])).map π := by simp
    rw [hmap, List.isChain_map]
    exact h.chain.imp fun a b hab => by simp [hab]

/-! ### Exchanged successors -/

section Exchange

variable [DecidableEq A]

/-- `a` and `b` exchange their successors. -/
def exchange (σ : Equiv.Perm A) (a b : A) : Equiv.Perm A := σ * Equiv.swap a b

@[simp] theorem exchange_left (σ : Equiv.Perm A) (a b : A) : exchange σ a b a = σ b := by
  simp [exchange]

@[simp] theorem exchange_right (σ : Equiv.Perm A) (a b : A) : exchange σ a b b = σ a := by
  simp [exchange]

theorem exchange_of_ne (ha : x ≠ a) (hb : x ≠ b) : exchange σ a b x = σ x := by
  rw [exchange, Equiv.Perm.mul_apply, Equiv.swap_apply_of_ne_of_ne ha hb]

theorem exchange_apply (σ : Equiv.Perm A) (a b x : A) :
    exchange σ a b x = if x = a then σ b else if x = b then σ a else σ x := by
  split_ifs with ha hb
  · rw [ha, exchange_left]
  · rw [hb, exchange_right]
  · exact exchange_of_ne ha hb

/-- `a` is taken out of its ring. -/
def isolate (σ : Equiv.Perm A) (a : A) : Equiv.Perm A := exchange σ (σ⁻¹ a) a

theorem isolate_eq (h : σ b = a) : isolate σ a = exchange σ b a := by
  rw [isolate, Equiv.Perm.inv_eq_iff_eq.mpr h.symm]

theorem isolate_apply (σ : Equiv.Perm A) (a x : A) :
    isolate σ a x = if x = a then a else if σ x = a then σ a else σ x := by
  obtain ⟨b, rfl⟩ := σ.surjective a
  rw [isolate_eq rfl, exchange_apply]
  simp only [σ.injective.eq_iff]
  by_cases hx : x = σ b
  · subst hx
    rw [if_pos rfl, if_pos rfl]
    split_ifs with hb
    · rw [hb, hb]
    · rfl
  · rw [if_neg hx, if_neg hx]

@[simp] theorem isolate_self (σ : Equiv.Perm A) (a : A) : isolate σ a a = a := by
  simp [isolate_apply]

theorem isolate_prev (σ : Equiv.Perm A) (a : A) : isolate σ a (σ⁻¹ a) = σ a := exchange_left σ _ a

/-- Between two cells of one ring an exchange splits it. -/
theorem RingAt.split (h : RingAt σ a (as ++ b :: bs)) :
    RingAt (exchange σ a b) b as ∧ RingAt (exchange σ a b) a bs := by
  have hnd := h.nodup
  have hchain := h.chain
  rw [List.append_assoc, List.cons_append, List.isChain_cons_split] at hchain
  simp only [List.nodup_cons, List.nodup_append, List.mem_append, List.mem_cons, not_or] at hnd
  obtain ⟨⟨haas, hab, habs⟩, has, ⟨hbbs, hbs⟩, hdisj⟩ := hnd
  have hbas : b ∉ as := fun hmem => hdisj b hmem b (.inl rfl) rfl
  constructor
  · refine ringAt_iff.mpr ⟨List.nodup_cons.mpr ⟨hbas, has⟩, relink hchain.1 (by simp) ?_⟩
    exact fun x hx => exchange_of_ne (fun heq => haas (heq ▸ hx)) fun heq => hbas (heq ▸ hx)
  · refine ringAt_iff.mpr ⟨List.nodup_cons.mpr ⟨habs, hbs⟩, relink hchain.2 (by simp) ?_⟩
    exact fun x hx => exchange_of_ne (fun heq => habs (heq ▸ hx)) fun heq => hbbs (heq ▸ hx)

/-- Between cells of two rings an exchange joins them. -/
theorem RingAt.join (ha : RingAt σ a as) (hb : RingAt σ b bs) (hne : b ∉ a :: as) :
    RingAt (exchange σ a b) a (bs ++ b :: as) := by
  have hdisj := ha.disjoint hb hne
  have hnda := ha.nodup
  have hndb := hb.nodup
  have hperm : (a :: (bs ++ b :: as)).Perm ((a :: as) ++ (b :: bs)) := by
    refine .cons a (List.perm_middle.trans ?_)
    exact (List.Perm.cons b List.perm_append_comm).trans List.perm_middle.symm
  refine ringAt_iff.mpr ⟨hperm.nodup_iff.mpr (List.Nodup.append hnda hndb hdisj), ?_⟩
  rw [List.append_assoc, List.cons_append, List.isChain_cons_split]
  constructor
  · refine relink hb.chain (by simp) fun x hx => exchange_of_ne ?_ ?_
    · exact fun heq => hdisj (List.mem_cons_self) (heq ▸ List.mem_cons_of_mem _ hx)
    · exact fun heq => (List.nodup_cons.mp hndb).1 (heq ▸ hx)
  · refine relink ha.chain (by simp) fun x hx => exchange_of_ne ?_ ?_
    · exact fun heq => (List.nodup_cons.mp hnda).1 (heq ▸ hx)
    · exact fun heq => hdisj (List.mem_cons_of_mem _ hx) (heq ▸ List.mem_cons_self)

theorem RingAt.joinAt (h : RingAt σ head (as ++ bs)) (hb : RingAt σ b cs)
    (hne : b ∉ head :: (as ++ bs)) :
    RingAt (exchange σ (as.getLastD head) b) head (as ++ cs ++ b :: bs) := by
  cases as using List.reverseRecOn with
  | nil => exact h.join hb hne
  | append_singleton as p =>
    rw [List.append_assoc, List.singleton_append] at h hne
    have hjoin := h.rotate.join hb fun hmem => hne (by
      simp only [List.mem_cons, List.mem_append] at hmem ⊢
      tauto)
    rw [← List.cons_append, ← List.append_assoc] at hjoin
    simpa using hjoin.rotate

theorem RingAt.splitAt (h : RingAt σ head (as ++ (bs ++ b :: cs))) :
    RingAt (exchange σ (as.getLastD head) b) head (as ++ cs) ∧
      RingAt (exchange σ (as.getLastD head) b) b bs := by
  cases as using List.reverseRecOn with
  | nil => exact h.split.symm
  | append_singleton as p =>
    rw [List.append_assoc, List.singleton_append] at h
    have hrotate := h.rotate
    rw [List.append_assoc, List.cons_append] at hrotate
    have hsplit := hrotate.split
    rw [List.getLastD_concat, List.append_assoc, List.singleton_append]
    exact ⟨hsplit.2.rotate, hsplit.1⟩

theorem RingAt.isolate (h : RingAt σ head (as ++ a :: bs)) :
    RingAt (isolate σ a) head (as ++ bs) := by
  cases as using List.reverseRecOn with
  | nil =>
    rw [isolate_eq h.apply_head]
    exact h.split.2
  | append_singleton as p =>
    rw [List.append_assoc, List.singleton_append] at h
    have hp := h.rotate
    have hsplit : RingAt (exchange σ p a) a [] ∧ _ := RingAt.split hp
    rw [isolate_eq hp.apply_head, List.append_assoc, List.singleton_append]
    exact hsplit.2.rotate

end Exchange

/-! ### Finitely many cells -/

/-- Finitely many linked cells, every other cell is alone. -/
@[ext] structure Rings (A : Type) where
  linked : Finset A
  next : Equiv.Perm A
  alone : ∀ a ∉ linked, next a = a

namespace Rings

@[simps] def unlinked : Rings A := ⟨∅, 1, fun _ _ => rfl⟩

theorem next_mem (r : Rings A) (ha : a ∈ r.linked) : r.next a ∈ r.linked := iterate_mem r.alone ha 1

theorem next_inv_mem (r : Rings A) (ha : a ∈ r.linked) : r.next⁻¹ a ∈ r.linked := by
  by_contra hout
  have hfix := r.alone _ hout
  rw [← Equiv.Perm.mul_apply, mul_inv_cancel, Equiv.Perm.one_apply] at hfix
  exact hout (hfix ▸ ha)

theorem exists_ringAt (r : Rings A) (a : A) : ∃ xs, RingAt r.next a xs :=
  GoodCommand.exists_ringAt r.alone a

theorem mem_linked (r : Rings A) (h : RingAt r.next head xs) (hhead : head ∈ r.linked)
    (ha : a ∈ head :: xs) : a ∈ r.linked := by
  by_contra hout
  obtain ⟨rfl, -⟩ := h.eq_nil ha (r.alone a hout)
  exact hout hhead

variable [DecidableEq A]

@[simps] def enter (r : Rings A) (a : A) : Rings A where
  linked := insert a r.linked
  next := r.next
  alone x hx := r.alone x fun hmem => hx (Finset.mem_insert_of_mem hmem)

@[simps] def exchange (r : Rings A) (a b : A) : Rings A where
  linked := insert a (insert b r.linked)
  next := GoodCommand.exchange r.next a b
  alone x hx := by
    simp only [Finset.mem_insert, not_or] at hx
    rw [exchange_of_ne hx.1 hx.2.1, r.alone x hx.2.2]

/-- `a` leaves its ring, and is a ring of its own. -/
@[simps] def isolate (r : Rings A) (a : A) : Rings A where
  linked := insert a r.linked
  next := GoodCommand.isolate r.next a
  alone x hx := by
    simp only [Finset.mem_insert, not_or] at hx
    rw [isolate_apply, if_neg hx.1, r.alone x hx.2, if_neg hx.1]

@[simps] def leave (r : Rings A) (a : A) : Rings A where
  linked := r.linked.erase a
  next := GoodCommand.isolate r.next a
  alone x hx := by
    rw [isolate_apply]
    split_ifs with ha hne
    · exact ha.symm
    · have hx' := r.alone x fun hmem => hx (Finset.mem_erase.mpr ⟨ha, hmem⟩)
      exact absurd (hx'.symm.trans hne) ha
    · exact r.alone x fun hmem => hx (Finset.mem_erase.mpr ⟨ha, hmem⟩)

theorem enter_of_mem (r : Rings A) (ha : a ∈ r.linked) : r.enter a = r :=
  Rings.ext (Finset.insert_eq_of_mem ha) rfl

theorem enter_exchange (r : Rings A) (a b : A) : (r.enter b).exchange a b = r.exchange a b :=
  Rings.ext (by simp) rfl

theorem leave_enter (r : Rings A) (a : A) : (r.leave a).enter a = r.isolate a := by
  have hlinked : insert a (r.linked.erase a) = insert a r.linked := by
    ext x
    by_cases hx : x = a <;> simp [hx]
  simp only [leave, enter, isolate, hlinked]

end Rings

end GoodCommand
