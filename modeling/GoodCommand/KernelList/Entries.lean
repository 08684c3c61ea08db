import GoodCommand.KernelList.Wired

/-! The functions that add, delete, replace and move single entries, as operations on rings. -/

namespace GoodCommand.KernelList

variable {A : Type} [DecidableEq A] {c : Constants A} {S : Finset A} {h h' : Heap A} {r : Rings A}
variable {e e₁ e₂ p new old head first last : A}

/-! ### Addition and deletion -/

theorem listAddBetween_leads (hw : h.Wired S r) (hp : p ∈ r.linked) (hnew : new ∈ S)
    (halone : r.next new = new) :
    Leads S h (listAddBetween h new p (r.next p)) (r.exchange p new) := by
  have hpS := hw.within hp
  have hnextS := hw.next_mem hp
  refine ⟨_, listAddBetween_ok (hw.mapped _ hnew) (hw.mapped _ hpS) (hw.mapped _ hnextS), ?_,
    ⟨hw.mapped, ?_, ?_⟩⟩
  · exact ((Heap.Within.refl S h).link hnew hnextS).link hpS hnew
  · exact Finset.insert_subset hpS (Finset.insert_subset hnew hw.within)
  · have hlinks := ((hw.linked.exchange p new).link (exchange_right _ _ _)).link
      ((exchange_left _ _ _).trans halone)
    refine hlinks.mono fun x hx => ?_
    simp only [Rings.exchange_linked, Finset.mem_insert, Finset.mem_erase] at hx ⊢
    tauto

theorem listAdd_leads (hw : h.Wired S r) (hhead : head ∈ r.linked) (hnew : new ∈ S)
    (halone : r.next new = new) : Leads S h (listAdd h new head) (r.exchange head new) := by
  rw [listAdd, hw.getNext hhead, ok_bind]
  exact listAddBetween_leads hw hhead hnew halone

theorem listAddTail_leads (hw : h.Wired S r) (hhead : head ∈ r.linked) (hnew : new ∈ S)
    (halone : r.next new = new) :
    Leads S h (listAddTail h new head) (r.exchange (r.next⁻¹ head) new) := by
  have hadd := listAddBetween_leads hw (r.next_inv_mem hhead) hnew halone
  rw [← Equiv.Perm.mul_apply, mul_inv_cancel, Equiv.Perm.one_apply] at hadd
  rw [listAddTail, hw.getPrev hhead, ok_bind]
  exact hadd

theorem listDelEntry_leads (hw : h.Wired S r) (he : e ∈ r.linked) :
    Leads S h (listDelEntry h e) (r.leave e) := by
  have hprevS := hw.prev_mem he
  have hnextS := hw.next_mem he
  refine ⟨h.link (r.next⁻¹ e) (r.next e), ?_, (Heap.Within.refl S h).link hprevS hnextS,
    ⟨hw.mapped, ?_, ?_⟩⟩
  · rw [listDelEntry, hw.getPrev he, ok_bind, hw.getNext he, ok_bind, listDelBetween,
      setPrev_ok (hw.mapped _ hnextS), ok_bind,
      setNext_ok (h := h.withPrev _ _) (hw.mapped _ hprevS)]
    rfl
  · exact (Finset.erase_subset _ _).trans hw.within
  · have hlinks := (hw.linked.isolate e).link (isolate_prev r.next e)
    refine hlinks.mono fun x hx => ?_
    simp only [Rings.leave_linked, Finset.mem_insert, Finset.mem_erase] at hx ⊢
    tauto

theorem listDelClearprev_leads (hw : h.Wired S r) (he : e ∈ r.linked) :
    Leads S h (listDelClearprev c h e) (r.leave e) := by
  refine (listDelEntry_leads hw he).bind fun h' hw' => ?_
  have heS := hw.within he
  exact ⟨_, setPrev_ok (hw'.mapped e heS) _, .withPrev heS _ _,
    hw'.withPrev (Finset.notMem_erase e _) _⟩

theorem listDel_leads (hw : h.Wired S r) (he : e ∈ r.linked) :
    Leads S h (listDel c h e) (r.leave e) := by
  refine (listDelEntry_leads hw he).bind fun h' hw' => ?_
  have heS := hw.within he
  have hout := Finset.notMem_erase e r.linked
  refine ⟨(h'.withNext e c.poison1).withPrev e c.poison2, ?_,
    (Heap.Within.withNext heS _ _).trans (.withPrev heS _ _), (hw'.withNext hout _).withPrev hout _⟩
  rw [setNext_ok (hw'.mapped e heS), ok_bind]
  exact setPrev_ok (h := h'.withNext _ _) (hw'.mapped e heS) _

theorem listDelInit_leads (hw : h.Wired S r) (he : e ∈ r.linked) :
    Leads S h (listDelInit h e) (r.isolate e) := by
  rw [← r.leave_enter]
  exact (listDelEntry_leads hw he).bind fun h' hw' =>
    initListHead_leads hw' (hw.within he) (isolate_self _ _)

/-! ### Replacement -/

theorem listReplace_ok {q : A} (hold : h.mapped old) (hnew : h.mapped new)
    (hnext : h.mapped (h.next old)) (hq : h.mapped q)
    (hprev : (h.link new (h.next old)).prev old = q) :
    listReplace h old new = .ok ((h.link new (h.next old)).link q new) := by
  have hnew₁ : (h.withNext new (h.next old)).next new = h.next old := Function.update_self ..
  have hnew₂ : ((h.link new (h.next old)).withPrev new q).prev new = q := Function.update_self ..
  rw [listReplace, getNext_ok hold, ok_bind, setNext_ok hnew, ok_bind,
    getNext_ok (h := h.withNext _ _) hnew, ok_bind, hnew₁,
    setPrev_ok (h := h.withNext _ _) hnext, ok_bind, ← Heap.link,
    getPrev_ok (h := h.link _ _) hold, ok_bind, hprev, setPrev_ok (h := h.link _ _) hnew, ok_bind,
    getPrev_ok (h := (h.link _ _).withPrev _ _) hnew, ok_bind, hnew₂,
    setNext_ok (h := (h.link _ _).withPrev _ _) hq]
  rfl

theorem listReplace_leads (hw : h.Wired S r) (hold : old ∈ r.linked) (hnew : new ∈ S)
    (halone : r.next new = new) (hne : new ≠ old) :
    Leads S h (listReplace h old new) ((r.exchange old new).leave old) := by
  obtain ⟨q, hq⟩ : ∃ q, q = (r.exchange old new).next⁻¹ old := ⟨_, rfl⟩
  have hnext := hw.linked.next old hold
  have holdS := hw.within hold
  have hnextS : h.next old ∈ S := hnext ▸ hw.next_mem hold
  have hwithin : (r.exchange old new).linked ⊆ S :=
    Finset.insert_subset holdS (Finset.insert_subset hnew hw.within)
  have hqS : q ∈ S := hq ▸ hwithin (Rings.next_inv_mem _ (Finset.mem_insert_self _ _))
  have hqnew : ((r.exchange old new).leave old).next q = new := by
    rw [hq]
    exact (isolate_prev _ _).trans ((exchange_left _ _ _).trans halone)
  have hstale := (hw.linked.exchange old new).isolate old
  rw [← Rings.exchange_next, ← hq, ← Rings.leave_next] at hstale
  -- in a ring of one cell `new->prev` is read from `old` after it has been written
  have hlinks : (h.link new (h.next old)).prev old = q ∧
      ((h.link new (h.next old)).link q new).Linked ((r.exchange old new).leave old).next
        ((r.exchange old new).leave old).linked := by
    rw [hnext, Heap.prev_link]
    by_cases hself : r.next old = old
    · -- `old` was alone, and `new` comes to be linked to the stale `old`
      obtain rfl : q = new := by
        rw [hq, Equiv.Perm.inv_eq_iff_eq, Rings.exchange_next, exchange_right, hself]
      have hstale := (hstale.withNext (a := q) (by simp) old).withPrev (a := old)
        (fun x hx heq => ?_) q
      · rw [hself, Function.update_self]
        refine ⟨rfl, (hstale.link hqnew).mono fun x hx => ?_⟩
        simp only [Rings.leave_linked, Rings.exchange_linked, Finset.mem_insert,
          Finset.mem_erase] at hx ⊢
        tauto
      · have hx' := (GoodCommand.isolate _ old).injective (heq.trans (isolate_self _ old).symm)
        simp [hx'] at hx
    · obtain rfl : q = r.next⁻¹ old := by
        rw [hq, Equiv.Perm.inv_eq_iff_eq, Rings.exchange_next, exchange_of_ne]
        · simp
        · exact fun heq => hself (Equiv.Perm.inv_eq_iff_eq.mp heq).symm
        · exact fun heq => hne (halone.symm.trans (Equiv.Perm.inv_eq_iff_eq.mp heq).symm)
      have hnewnext : ((r.exchange old new).leave old).next new = r.next old := by
        rw [Rings.leave_next, isolate_apply, if_neg hne, Rings.exchange_next, exchange_right,
          if_neg hself]
      rw [Function.update_of_ne (Ne.symm hself), hw.prev hold]
      refine ⟨rfl, ((hstale.link hnewnext).link hqnew).mono fun x hx => ?_⟩
      simp only [Rings.leave_linked, Rings.exchange_linked, Finset.mem_insert,
        Finset.mem_erase] at hx ⊢
      tauto
  refine ⟨_, listReplace_ok (hw.mapped _ holdS) (hw.mapped _ hnew) (hw.mapped _ hnextS)
    (hw.mapped _ hqS) hlinks.1, ?_, ⟨hw.mapped, (Finset.erase_subset _ _).trans hwithin, hlinks.2⟩⟩
  exact ((Heap.Within.refl S h).link hnew hnextS).link hqS hnew

theorem listReplaceInit_leads (hw : h.Wired S r) (hold : old ∈ r.linked) (hnew : new ∈ S)
    (halone : r.next new = new) (hne : new ≠ old) :
    Leads S h (listReplaceInit h old new) ((r.exchange old new).isolate old) := by
  rw [← Rings.leave_enter]
  exact (listReplace_leads hw hold hnew halone hne).bind fun h' hw' =>
    initListHead_leads hw' (hw.within hold) (isolate_self _ _)

/-! ### Moves -/

theorem listMove_leads (hw : h.Wired S r) (he : e ∈ r.linked) (hhead : head ∈ r.linked)
    (hne : head ≠ e) : Leads S h (listMove h e head) ((r.leave e).exchange head e) :=
  (listDelEntry_leads hw he).bind fun _ hw' =>
    listAdd_leads hw' (Finset.mem_erase.mpr ⟨hne, hhead⟩) (hw.within he) (isolate_self _ _)

theorem listMoveTail_leads (hw : h.Wired S r) (he : e ∈ r.linked) (hhead : head ∈ r.linked)
    (hne : head ≠ e) :
    Leads S h (listMoveTail h e head) ((r.leave e).exchange ((r.leave e).next⁻¹ head) e) :=
  (listDelEntry_leads hw he).bind fun _ hw' =>
    listAddTail_leads hw' (Finset.mem_erase.mpr ⟨hne, hhead⟩) (hw.within he) (isolate_self _ _)

def swapped (r : Rings A) (e₁ e₂ : A) : Rings A :=
  (((r.leave e₂).exchange e₁ e₂).leave e₁).exchange
    (if r.next⁻¹ e₂ = e₁ then e₂ else r.next⁻¹ e₂) e₁

theorem listSwap_leads (hw : h.Wired S r) (he₁ : e₁ ∈ r.linked) (he₂ : e₂ ∈ r.linked)
    (hne : e₁ ≠ e₂) : Leads S h (listSwap c h e₁ e₂) (swapped r e₁ e₂) := by
  rw [listSwap, hw.getPrev he₂, ok_bind]
  refine (listDel_leads hw he₂).bind fun h₁ hw₁ => ?_
  have he₁' : e₁ ∈ (r.leave e₂).linked := Finset.mem_erase.mpr ⟨hne, he₁⟩
  refine (listReplace_leads hw₁ he₁' (hw.within he₂) (isolate_self _ _) hne.symm).bind
    fun h₂ hw₂ => listAdd_leads hw₂ ?_ (hw.within he₁) (isolate_self _ _)
  have hprev := r.next_inv_mem he₂
  simp only [Rings.leave_linked, Rings.exchange_linked, Finset.mem_erase, Finset.mem_insert]
  split_ifs with heq
  · exact ⟨hne.symm, .inr (.inl rfl)⟩
  · tauto

theorem swapped_next (r : Rings A) (hne : e₁ ≠ e₂) (hself : r.next e₂ ≠ e₂) :
    (swapped r e₁ e₂).next = Equiv.swap e₁ e₂ * r.next * Equiv.swap e₁ e₂ := by
  obtain ⟨p, hp⟩ := r.next.surjective e₂
  have hprev : r.next⁻¹ e₂ = p := Equiv.Perm.inv_eq_iff_eq.mpr hp.symm
  have hinj := r.next.injective
  ext x
  simp only [swapped, hprev, Rings.exchange_next, Rings.leave_next, isolate_apply, exchange_apply,
    Equiv.Perm.mul_apply, Equiv.swap_apply_def]
  grind

theorem swapped_linked (r : Rings A) (he₁ : e₁ ∈ r.linked) (he₂ : e₂ ∈ r.linked) :
    (swapped r e₁ e₂).linked = r.linked := by
  have hprev := r.next_inv_mem he₂
  ext x
  simp only [swapped, Rings.exchange_linked, Rings.leave_linked, Finset.mem_insert,
    Finset.mem_erase]
  split_ifs with heq <;> grind

def bulkMoved (r : Rings A) (head first last : A) : Rings A :=
  (r.exchange (r.next⁻¹ first) last).exchange
    ((r.exchange (r.next⁻¹ first) last).next⁻¹ head) last

theorem listBulkMoveTail_ok {q b : A} (hhead : h.mapped head) (hfirst : h.mapped first)
    (hlast : h.mapped last) (hp : h.mapped p) (hq : h.mapped q) (hb : h.mapped b)
    (hprev : h.prev first = p) (hnext : h.next last = b) (hheadprev : (h.link p b).prev head = q) :
    listBulkMoveTail h head first last =
      .ok (((h.link p b).link q first).link last head) := by
  have hnext₁ : (h.withNext p b).next last = b := by
    rw [Heap.next_withNext]
    by_cases heq : last = p
    · rw [heq, Function.update_self]
    · rw [Function.update_of_ne heq, hnext]
  rw [listBulkMoveTail, getPrev_ok hfirst, ok_bind, getNext_ok hlast, ok_bind, hprev, hnext,
    setNext_ok hp, ok_bind, getNext_ok (h := h.withNext _ _) hlast, ok_bind, hnext₁,
    getPrev_ok (h := h.withNext _ _) hfirst, ok_bind, Heap.prev_withNext, hprev,
    setPrev_ok (h := h.withNext _ _) hb, ok_bind, ← Heap.link,
    getPrev_ok (h := h.link _ _) hhead, ok_bind, hheadprev, setNext_ok (h := h.link _ _) hq,
    ok_bind, getPrev_ok (h := (h.link _ _).withNext _ _) hhead, ok_bind, Heap.prev_withNext,
    hheadprev, setPrev_ok (h := (h.link _ _).withNext _ _) hfirst, ok_bind, ← Heap.link,
    setNext_ok (h := (h.link _ _).link _ _) hlast, ok_bind,
    setPrev_ok (h := ((h.link _ _).link _ _).withNext _ _) hhead]
  rfl

theorem listBulkMoveTail_leads (hw : h.Wired S r) (hhead : head ∈ r.linked)
    (hfirst : first ∈ r.linked) (hlast : last ∈ r.linked) (hne : head ≠ first) :
    Leads S h (listBulkMoveTail h head first last) (bulkMoved r head first last) := by
  obtain ⟨p, hp⟩ : ∃ p, p = r.next⁻¹ first := ⟨_, rfl⟩
  have hpL : p ∈ r.linked := hp ▸ r.next_inv_mem hfirst
  have hpfirst : r.next p = first := (Equiv.Perm.eq_inv_iff_eq.mp hp)
  obtain ⟨q, hq⟩ : ∃ q, q = (r.exchange p last).next⁻¹ head := ⟨_, rfl⟩
  have hqhead : (r.exchange p last).next q = head := Equiv.Perm.eq_inv_iff_eq.mp hq
  have hqlast : q ≠ last := by
    rintro rfl
    rw [Rings.exchange_next, exchange_right, hpfirst] at hqhead
    exact hne hqhead.symm
  have hlinked : (r.exchange p last).linked = r.linked := by
    rw [Rings.exchange_linked, Finset.insert_eq_of_mem hlast, Finset.insert_eq_of_mem hpL]
  have hqL : q ∈ r.linked := by
    rw [hq, ← hlinked]
    exact Rings.next_inv_mem _ (hlinked ▸ hhead)
  -- the segment is a ring of its own, of which `last` does not know yet
  have hcut : (h.link p (r.next last)).Linked (r.exchange p last).next (r.linked.erase last) := by
    refine ((hw.linked.exchange p last).link (exchange_left _ _ _)).mono fun x hx => ?_
    simp only [Finset.mem_insert, Finset.mem_erase] at hx ⊢
    tauto
  -- `head->prev` is read after the cut, which has changed it where the segment was at the end
  have hprev : (h.link p (r.next last)).prev head = q := by
    have hq' := hcut.prev q (Finset.mem_erase.mpr ⟨hqlast, hqL⟩)
    rwa [hqhead] at hq'
  have hlinks := ((hcut.exchange q last).link (a := q) (b := first)
    ((exchange_left _ _ _).trans ((exchange_right _ _ _).trans hpfirst))).link
      (a := last) (b := head) ((exchange_right _ _ _).trans hqhead)
  have hS := fun {x} (hx : x ∈ r.linked) => hw.within hx
  refine ⟨((h.link p (r.next last)).link q first).link last head, ?_, ?_,
    ⟨hw.mapped, ?_, ?_⟩⟩
  · refine listBulkMoveTail_ok (hw.mapped _ (hS hhead)) (hw.mapped _ (hS hfirst))
      (hw.mapped _ (hS hlast)) (hw.mapped _ (hS hpL)) (hw.mapped _ (hS hqL))
      (hw.mapped _ (hw.next_mem hlast)) ?_ (hw.linked.next last hlast) hprev
    rw [hw.prev hfirst, hp]
  · exact (((Heap.Within.refl S h).link (hS hpL) (hw.next_mem hlast)).link (hS hqL)
      (hS hfirst)).link (hS hlast) (hS hhead)
  · rw [bulkMoved, ← hp, ← hq, Rings.exchange_linked, hlinked]
    exact Finset.insert_subset (hS hqL) (Finset.insert_subset (hS hlast) hw.within)
  · rw [bulkMoved, ← hp, ← hq]
    refine hlinks.mono fun x hx => ?_
    rw [Rings.exchange_linked, hlinked] at hx
    simp only [Finset.mem_insert, Finset.mem_erase] at hx ⊢
    tauto

end GoodCommand.KernelList
