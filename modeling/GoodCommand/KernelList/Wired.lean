import GoodCommand.KernelList.Defs
import GoodCommand.Library.Except
import GoodCommand.Library.Rings

/-! What a heap of `struct list_head` represents: the rings that its pointers wire. A function that
rewires a ring first makes some cells stale, those that get a new successor, and then links these
cells one by one. -/

namespace GoodCommand.KernelList

variable {A : Type}

/-! ### Heaps -/

section Heap

variable {h h' h'' : Heap A} {p q a : A} {S : Finset A}

theorem getNext_ok (hp : h.mapped p) : getNext h p = .ok (h.next p) := if_pos hp

theorem getPrev_ok (hp : h.mapped p) : getPrev h p = .ok (h.prev p) := if_pos hp

/-- Nothing but the members of the cells `S` differs. -/
structure Heap.Within (S : Finset A) (h h' : Heap A) : Prop where
  mapped : h'.mapped = h.mapped
  next : ∀ a ∉ S, h'.next a = h.next a
  prev : ∀ a ∉ S, h'.prev a = h.prev a

theorem Heap.Within.refl (S : Finset A) (h : Heap A) : h.Within S h :=
  ⟨rfl, fun _ _ => rfl, fun _ _ => rfl⟩

theorem Heap.Within.trans (hfirst : h.Within S h') (hrest : h'.Within S h'') : h.Within S h'' where
  mapped := hrest.mapped.trans hfirst.mapped
  next a ha := (hrest.next a ha).trans (hfirst.next a ha)
  prev a ha := (hrest.prev a ha).trans (hfirst.prev a ha)

variable [DecidableEq A]

@[simp] theorem Heap.next_withNext (h : Heap A) (p q : A) :
    (h.withNext p q).next = Function.update h.next p q := rfl

@[simp] theorem Heap.prev_withNext (h : Heap A) (p q : A) : (h.withNext p q).prev = h.prev := rfl

@[simp] theorem Heap.prev_withPrev (h : Heap A) (p q : A) :
    (h.withPrev p q).prev = Function.update h.prev p q := rfl

theorem setNext_ok (hp : h.mapped p) (q : A) : setNext h p q = .ok (h.withNext p q) := if_pos hp

theorem setPrev_ok (hp : h.mapped p) (q : A) : setPrev h p q = .ok (h.withPrev p q) := if_pos hp

/-- `p->next = q; q->prev = p` -/
def Heap.link (h : Heap A) (p q : A) : Heap A := (h.withNext p q).withPrev q p

@[simp] theorem Heap.next_link (h : Heap A) (p q : A) :
    (h.link p q).next = Function.update h.next p q := rfl

@[simp] theorem Heap.prev_link (h : Heap A) (p q : A) :
    (h.link p q).prev = Function.update h.prev q p := rfl

theorem Heap.Within.withNext (hp : p ∈ S) (h : Heap A) (q : A) : h.Within S (h.withNext p q) where
  mapped := rfl
  next _ ha := Function.update_of_ne (ne_of_mem_of_not_mem hp ha).symm _ _
  prev _ _ := rfl

theorem Heap.Within.withPrev (hp : p ∈ S) (h : Heap A) (q : A) : h.Within S (h.withPrev p q) where
  mapped := rfl
  next _ _ := rfl
  prev _ ha := Function.update_of_ne (ne_of_mem_of_not_mem hp ha).symm _ _

theorem Heap.Within.link (hp : p ∈ S) (hq : q ∈ S) (hw : h.Within S h') :
    h.Within S (h'.link p q) :=
  hw.trans ((Heap.Within.withNext hp h' q).trans (Heap.Within.withPrev hq _ p))

end Heap

/-! ### Rings on the heap -/

section Linked

variable {h : Heap A} {σ : Equiv.Perm A} {L L' : Finset A} {a b : A}

/-- The cells `L` and their successors by `σ` point to each other. -/
structure Heap.Linked (h : Heap A) (σ : Equiv.Perm A) (L : Finset A) : Prop where
  next : ∀ a ∈ L, h.next a = σ a
  prev : ∀ a ∈ L, h.prev (σ a) = a

namespace Heap.Linked

theorem mono (hl : h.Linked σ L) (hsub : L' ⊆ L) : h.Linked σ L' where
  next a ha := hl.next a (hsub ha)
  prev a ha := hl.prev a (hsub ha)

variable [DecidableEq A]

theorem exchange (hl : h.Linked σ L) (a b : A) :
    h.Linked (GoodCommand.exchange σ a b) ((L.erase a).erase b) where
  next x hx := by
    simp only [Finset.mem_erase] at hx
    rw [exchange_of_ne hx.2.1 hx.1, hl.next x hx.2.2]
  prev x hx := by
    simp only [Finset.mem_erase] at hx
    rw [exchange_of_ne hx.2.1 hx.1, hl.prev x hx.2.2]

theorem isolate (hl : h.Linked σ L) (a : A) :
    h.Linked (GoodCommand.isolate σ a) ((L.erase (σ⁻¹ a)).erase a) :=
  hl.exchange (σ⁻¹ a) a

theorem link (hl : h.Linked σ L) (hb : σ a = b) : (h.link a b).Linked σ (insert a L) where
  next x hx := by
    rw [Heap.next_link]
    rcases eq_or_ne x a with rfl | hne
    · rw [Function.update_self, hb]
    · rw [Function.update_of_ne hne, hl.next x (Finset.mem_of_mem_insert_of_ne hx hne)]
  prev x hx := by
    rw [Heap.prev_link]
    rcases eq_or_ne x a with rfl | hne
    · rw [hb, Function.update_self]
    · have hσ : σ x ≠ b := fun heq => hne (σ.injective (heq.trans hb.symm))
      rw [Function.update_of_ne hσ, hl.prev x (Finset.mem_of_mem_insert_of_ne hx hne)]

theorem withNext (hl : h.Linked σ L) (ha : a ∉ L) (q : A) : (h.withNext a q).Linked σ L where
  next x hx := by
    rw [Heap.next_withNext, Function.update_of_ne (ne_of_mem_of_not_mem hx ha), hl.next x hx]
  prev x hx := hl.prev x hx

theorem withPrev (hl : h.Linked σ L) (ha : ∀ x ∈ L, σ x ≠ a) (q : A) :
    (h.withPrev a q).Linked σ L where
  next x hx := hl.next x hx
  prev x hx := by rw [Heap.prev_withPrev, Function.update_of_ne (ha x hx), hl.prev x hx]

end Heap.Linked

end Linked

/-- On the cells `S` of the heap there are the rings `r`. Cells that are not linked may hold
anything. -/
structure Heap.Wired (S : Finset A) (h : Heap A) (r : Rings A) : Prop where
  mapped : ∀ a ∈ S, h.mapped a
  within : r.linked ⊆ S
  linked : h.Linked r.next r.linked

/-- The pointers lead from `head` through the entries `xs`, in order, back to `head`, and the same
way backwards. -/
def Heap.IsList (h : Heap A) (head : A) (xs : List A) : Prop :=
  LinkedRing (fun a => some (h.next a)) (fun a => some (h.prev a)) head xs

def Leads (S : Finset A) (h : Heap A) (x : Except (WildPointer A) (Heap A)) (r : Rings A) : Prop :=
  ∃ h', x = .ok h' ∧ h.Within S h' ∧ h'.Wired S r

section Wired

variable {S : Finset A} {h : Heap A} {r r' : Rings A} {a b e p new head : A}

theorem Leads.bind {x : Except (WildPointer A) (Heap A)}
    {f : Heap A → Except (WildPointer A) (Heap A)} (hx : Leads S h x r)
    (hf : ∀ h', h'.Wired S r → Leads S h' (f h') r') : Leads S h (x >>= f) r' := by
  obtain ⟨h', rfl, hin, hw⟩ := hx
  obtain ⟨h'', hrun, hin', hw'⟩ := hf h' hw
  exact ⟨h'', hrun, hin.trans hin', hw'⟩

theorem Leads.refl (hw : h.Wired S r) : Leads S h (.ok h) r :=
  ⟨h, rfl, Heap.Within.refl S h, hw⟩

theorem wired_unlinked (hS : ∀ a ∈ S, h.mapped a) : h.Wired S Rings.unlinked :=
  ⟨hS, Finset.empty_subset S, ⟨fun _ ha => absurd ha (Finset.notMem_empty _),
    fun _ ha => absurd ha (Finset.notMem_empty _)⟩⟩

namespace Heap.Wired

theorem getNext (hw : h.Wired S r) (ha : a ∈ r.linked) :
    KernelList.getNext h a = .ok (r.next a) := by
  rw [getNext_ok (hw.mapped a (hw.within ha)), hw.linked.next a ha]

theorem prev (hw : h.Wired S r) (ha : a ∈ r.linked) : h.prev a = r.next⁻¹ a := by
  have hprev := hw.linked.prev _ (r.next_inv_mem ha)
  rwa [← Equiv.Perm.mul_apply, mul_inv_cancel, Equiv.Perm.one_apply] at hprev

theorem getPrev (hw : h.Wired S r) (ha : a ∈ r.linked) :
    KernelList.getPrev h a = .ok (r.next⁻¹ a) := by
  rw [getPrev_ok (hw.mapped a (hw.within ha)), hw.prev ha]

theorem isList {xs : List A} (hw : h.Wired S r) (hhead : head ∈ r.linked)
    (hring : RingAt r.next head xs) : h.IsList head xs where
  nodup := hring.nodup
  linked := by
    refine hring.chain.imp_of_mem_imp fun a b ha _ hab => ?_
    have hlinked : a ∈ r.linked := r.mem_linked hring hhead (by simp at ha ⊢; tauto)
    exact ⟨congrArg some ((hw.linked.next a hlinked).trans hab),
      congrArg some (hab ▸ hw.linked.prev a hlinked)⟩

theorem unique {h₀ h' : Heap A} (hin : h₀.Within r.linked h) (hin' : h₀.Within r.linked h')
    (hw : h.Wired S r) (hw' : h'.Wired S r) : h = h' := by
  have hnext : h.next = h'.next := by
    funext a
    by_cases ha : a ∈ r.linked
    · rw [hw.linked.next a ha, hw'.linked.next a ha]
    · rw [hin.next a ha, hin'.next a ha]
  have hprev : h.prev = h'.prev := by
    funext a
    by_cases ha : a ∈ r.linked
    · rw [hw.prev ha, hw'.prev ha]
    · rw [hin.prev a ha, hin'.prev a ha]
  cases h
  cases h'
  simp only [Heap.mk.injEq]
  exact ⟨hin.mapped.trans hin'.mapped.symm, hnext, hprev⟩

theorem next_mem (hw : h.Wired S r) (ha : a ∈ r.linked) : r.next a ∈ S :=
  hw.within (r.next_mem ha)

theorem prev_mem (hw : h.Wired S r) (ha : a ∈ r.linked) : r.next⁻¹ a ∈ S :=
  hw.within (r.next_inv_mem ha)

variable [DecidableEq A]

theorem withNext (hw : h.Wired S r) (ha : a ∉ r.linked) (q : A) : (h.withNext a q).Wired S r where
  mapped := hw.mapped
  within := hw.within
  linked := hw.linked.withNext ha q

theorem withPrev (hw : h.Wired S r) (ha : a ∉ r.linked) (q : A) : (h.withPrev a q).Wired S r where
  mapped := hw.mapped
  within := hw.within
  linked := hw.linked.withPrev (fun _ hx => ne_of_mem_of_not_mem (r.next_mem hx) ha) q

end Heap.Wired

variable [DecidableEq A] {c : Constants A}

theorem initListHead_leads (hw : h.Wired S r) (ha : a ∈ S) (halone : r.next a = a) :
    Leads S h (initListHead h a) (r.enter a) := by
  refine ⟨h.link a a, ?_, (Heap.Within.refl S h).link ha ha, ⟨hw.mapped, ?_, ?_⟩⟩
  · rw [initListHead, setNext_ok (hw.mapped a ha), ok_bind,
      setPrev_ok (h := h.withNext a a) (hw.mapped a ha)]
    rfl
  · exact Finset.insert_subset ha hw.within
  · exact hw.linked.link halone

theorem listAddBetween_ok (hnew : h.mapped new) (hp : h.mapped p) (hb : h.mapped b) :
    listAddBetween h new p b = .ok ((h.link new b).link p new) := by
  rw [listAddBetween, setPrev_ok hb, ok_bind, setNext_ok (h := h.withPrev _ _) hnew, ok_bind,
    setPrev_ok (h := (h.withPrev _ _).withNext _ _) hnew, ok_bind,
    setNext_ok (h := ((h.withPrev _ _).withNext _ _).withPrev _ _) hp]
  rfl

end Wired

end GoodCommand.KernelList
