import GoodCommand.KernelList.Entries

/-! The functions that test, rotate, cut and splice whole lists, as operations on rings. -/

namespace GoodCommand.KernelList

variable {A : Type} [DecidableEq A] {S : Finset A} {h h' : Heap A} {r : Rings A}
variable {p entry list head : A}

/-! ### Tests -/

theorem listEmpty_ok (hw : h.Wired S r) (hhead : head ∈ r.linked) :
    listEmpty h head = .ok (r.next head = head) := by
  rw [listEmpty, hw.getNext hhead]
  rfl

theorem listEmptyCareful_ok (hw : h.Wired S r) (hhead : head ∈ r.linked) :
    listEmptyCareful h head = .ok (r.next head = head) := by
  rw [listEmptyCareful, hw.getNext hhead, ok_bind]
  by_cases hself : r.next head = head
  · have hprev : r.next⁻¹ head = head := Equiv.Perm.inv_eq_iff_eq.mpr hself.symm
    rw [if_pos hself, hw.getPrev hhead, ok_bind, hprev, hself]
    rfl
  · rw [if_neg hself]
    exact congrArg Except.ok (decide_eq_false hself).symm

theorem listIsSingular_ok (hw : h.Wired S r) (hhead : head ∈ r.linked) :
    listIsSingular h head = .ok (r.next head ≠ head ∧ r.next head = r.next⁻¹ head) := by
  rw [listIsSingular, listEmpty_ok hw hhead, ok_bind]
  by_cases hself : r.next head = head
  · rw [if_pos (decide_eq_true hself)]
    exact congrArg Except.ok (decide_eq_false fun hand => hand.1 hself).symm
  · rw [if_neg (by simpa using hself), hw.getNext hhead, ok_bind, hw.getPrev hhead, ok_bind]
    refine congrArg Except.ok ?_
    rw [decide_eq_decide]
    exact ⟨fun heq => ⟨hself, heq⟩, And.right⟩

/-! ### Rotation -/

def rotatedLeft (r : Rings A) (head : A) : Rings A :=
  if r.next head = head then r
  else (r.leave (r.next head)).exchange ((r.leave (r.next head)).next⁻¹ head) (r.next head)

theorem listRotateLeft_leads (hw : h.Wired S r) (hhead : head ∈ r.linked) :
    Leads S h (listRotateLeft h head) (rotatedLeft r head) := by
  rw [listRotateLeft, listEmpty_ok hw hhead, ok_bind, rotatedLeft]
  by_cases hself : r.next head = head
  · rw [if_pos (decide_eq_true hself), if_pos hself]
    exact .refl hw
  · rw [if_neg (by simpa using hself), if_neg hself, hw.getNext hhead, ok_bind]
    exact listMoveTail_leads hw (r.next_mem hhead) hhead (Ne.symm hself)

theorem listRotateToFront_leads (hw : h.Wired S r) (hlist : list ∈ r.linked)
    (hhead : head ∈ r.linked) (hne : list ≠ head) :
    Leads S h (listRotateToFront h list head)
      ((r.leave head).exchange ((r.leave head).next⁻¹ list) head) :=
  listMoveTail_leads hw hhead hlist hne

/-! ### Cuts -/

def cutAt (r : Rings A) (list head e : A) : Rings A := (r.exchange e list).exchange head list

theorem cut_wired {e : A} (hw : h.Wired S r) (hlist : list ∈ S) (halone : r.next list = list)
    (hhead : head ∈ r.linked) (he : e ∈ r.linked) (hhl : head ≠ list) (hel : e ≠ list)
    (heh : e ≠ head) :
    h.Within S (((h.link list (r.next head)).link e list).link head (r.next e)) ∧
      (((h.link list (r.next head)).link e list).link head (r.next e)).Wired S
        (cutAt r list head e) := by
  have hheadS := hw.within hhead
  have heS := hw.within he
  have hlistnext : (cutAt r list head e).next list = r.next head :=
    (exchange_right _ _ _).trans (exchange_of_ne heh.symm hhl)
  have henext : (cutAt r list head e).next e = list :=
    (exchange_of_ne heh hel).trans ((exchange_left _ _ _).trans halone)
  have hheadnext : (cutAt r list head e).next head = r.next e :=
    (exchange_left _ _ _).trans (exchange_right _ _ _)
  constructor
  · exact (((Heap.Within.refl S h).link hlist (hw.next_mem hhead)).link heS hlist).link hheadS
      (hw.next_mem he)
  · refine ⟨hw.mapped, ?_, ?_⟩
    · exact Finset.insert_subset hheadS (Finset.insert_subset hlist
        (Finset.insert_subset heS (Finset.insert_subset hlist hw.within)))
    · have hstale := (hw.linked.exchange e list).exchange head list
      refine (((hstale.link hlistnext).link henext).link hheadnext).mono fun x hx => ?_
      simp only [cutAt, Rings.exchange_linked, Finset.mem_insert, Finset.mem_erase] at hx ⊢
      tauto

theorem listCutBehind_leads (hw : h.Wired S r) (hlist : list ∈ S) (halone : r.next list = list)
    (hhead : head ∈ r.linked) (hentry : entry ∈ r.linked) (hhl : head ≠ list)
    (hel : entry ≠ list) (heh : entry ≠ head) :
    Leads S h (listCutBehind h list head entry) (cutAt r list head entry) := by
  have hcut := cut_wired hw hlist halone hhead hentry hhl hel heh
  refine ⟨_, ?_, hcut.1, hcut.2⟩
  have hM := hw.mapped
  have hnext : (h.withNext list (r.next head)).next list = r.next head := Function.update_self ..
  have hlistM := hM _ hlist
  have hheadM := hM _ (hw.within hhead)
  have hentryM := hM _ (hw.within hentry)
  rw [listCutBehind, hw.getNext hentry, ok_bind, hw.getNext hhead, ok_bind, setNext_ok hlistM,
    ok_bind, getNext_ok (h := h.withNext _ _) hlistM, ok_bind, hnext,
    setPrev_ok (h := h.withNext _ _) (hM _ (hw.next_mem hhead)), ok_bind, ← Heap.link,
    setPrev_ok (h := h.link _ _) hlistM, ok_bind,
    setNext_ok (h := (h.link _ _).withPrev _ _) hentryM, ok_bind,
    setNext_ok (h := ((h.link _ _).withPrev _ _).withNext _ _) hheadM, ok_bind,
    setPrev_ok (h := (((h.link _ _).withPrev _ _).withNext _ _).withNext _ _)
      (hM _ (hw.next_mem hentry))]
  rfl

def cutPosition (r : Rings A) (list head entry : A) : Rings A :=
  if r.next head = head then r
  else if entry = head then r.enter list
  else cutAt r list head entry

omit [DecidableEq A] in
/-- The test for a list of one entry lets every entry of the list pass. -/
theorem mem_of_singular {xs : List A} (hring : RingAt r.next head xs) (hne : r.next head ≠ head)
    (hback : r.next head = r.next⁻¹ head) (hentry : entry ∈ head :: xs) :
    r.next head = entry ∨ head = entry := by
  have hone : RingAt r.next head [r.next head] := by
    refine ringAt_iff.mpr ⟨by simpa using hne.symm, .cons_cons rfl (.cons_cons ?_ (.singleton _))⟩
    exact (Equiv.Perm.eq_inv_iff_eq.mp hback)
  rw [hring.unique hone, List.mem_cons, List.mem_singleton] at hentry
  exact hentry.symm.imp Eq.symm Eq.symm

theorem listCutPosition_leads {xs : List A} (hw : h.Wired S r) (hlist : list ∈ S)
    (halone : r.next list = list) (hhead : head ∈ r.linked) (hring : RingAt r.next head xs)
    (hentry : entry ∈ head :: xs) :
    Leads S h (listCutPosition h list head entry) (cutPosition r list head entry) := by
  rw [listCutPosition, listEmpty_ok hw hhead, ok_bind, cutPosition]
  by_cases hself : r.next head = head
  · rw [if_pos (decide_eq_true hself), if_pos hself]
    exact .refl hw
  · have hmany : ∀ {a}, a ∈ head :: xs → r.next a ≠ a := fun ha haself =>
      hself ((hring.eq_nil ha haself).1 ▸ haself)
    have hout : list ∉ head :: xs := fun hmem => hmany hmem halone
    -- the guard for a list of one entry lets both places pass that `entry` can have there
    have hpass : (decide (r.next head ≠ head ∧ r.next head = r.next⁻¹ head) &&
        (decide (r.next head ≠ entry) && decide (head ≠ entry))) = false := by
      rw [← Bool.not_eq_true, Bool.and_eq_true, Bool.and_eq_true, decide_eq_true_eq,
        decide_eq_true_eq, decide_eq_true_eq]
      rintro ⟨⟨hne, hback⟩, hnext, hhead⟩
      exact (mem_of_singular hring hne hback hentry).elim hnext hhead
    rw [if_neg (by simpa using hself), if_neg hself, listIsSingular_ok hw hhead, ok_bind,
      hw.getNext hhead, ok_bind, hpass, if_neg (by simp)]
    by_cases hall : entry = head
    · rw [if_pos hall, if_pos hall]
      exact initListHead_leads hw hlist halone
    · rw [if_neg hall, if_neg hall]
      exact listCutBehind_leads hw hlist halone hhead (r.mem_linked hring hhead hentry)
        (ne_of_mem_of_not_mem List.mem_cons_self hout) (ne_of_mem_of_not_mem hentry hout) hall

def cutBefore (r : Rings A) (list head entry : A) : Rings A :=
  if r.next head = entry then r.enter list else cutAt r list head (r.next⁻¹ entry)

theorem listCutBefore_leads (hw : h.Wired S r) (hlist : list ∈ S) (halone : r.next list = list)
    (hhead : head ∈ r.linked) (hentry : entry ∈ r.linked) (hhl : head ≠ list)
    (hel : entry ≠ list) :
    Leads S h (listCutBefore h list head entry) (cutBefore r list head entry) := by
  rw [listCutBefore, hw.getNext hhead, ok_bind, cutBefore]
  by_cases hfirst : r.next head = entry
  · rw [if_pos hfirst, if_pos hfirst]
    exact initListHead_leads hw hlist halone
  · obtain ⟨e, rfl⟩ := r.next.surjective entry
    have hprev : r.next⁻¹ (r.next e) = e := Equiv.Perm.inv_eq_iff_eq.mpr rfl
    have he : e ∈ r.linked := hprev ▸ r.next_inv_mem hentry
    have hcut := cut_wired hw hlist halone hhead he hhl (fun heq => hel (heq ▸ halone))
      fun heq => hfirst (heq ▸ rfl)
    rw [if_neg hfirst, if_neg hfirst, hprev]
    refine ⟨_, ?_, hcut.1, hcut.2⟩
    have hM := hw.mapped
    have hlistM := hM _ hlist
    have hheadM := hM _ (hw.within hhead)
    have hentryM := hM _ (hw.within hentry)
    have hnext : (h.withNext list (r.next head)).next list = r.next head := Function.update_self ..
    have hentryprev : (h.link list (r.next head)).prev (r.next e) = e := by
      rw [Heap.prev_link, Function.update_of_ne (Ne.symm hfirst), hw.linked.prev e he]
    have hlistprev : ((h.link list (r.next head)).withPrev list e).prev list = e :=
      Function.update_self ..
    rw [ok_bind, setNext_ok hlistM, ok_bind, getNext_ok (h := h.withNext _ _) hlistM, ok_bind,
      hnext, setPrev_ok (h := h.withNext _ _) (hM _ (hw.next_mem hhead)), ok_bind, ← Heap.link,
      getPrev_ok (h := h.link _ _) hentryM, ok_bind, hentryprev,
      setPrev_ok (h := h.link _ _) hlistM, ok_bind,
      getPrev_ok (h := (h.link _ _).withPrev _ _) hlistM, ok_bind, hlistprev,
      setNext_ok (h := (h.link _ _).withPrev _ _) (hM _ (hw.within he)), ok_bind,
      setNext_ok (h := ((h.link _ _).withPrev _ _).withNext _ _) hheadM, ok_bind,
      setPrev_ok (h := (((h.link _ _).withPrev _ _).withNext _ _).withNext _ _) hentryM]
    rfl

/-! ### Splices -/

theorem listSpliceBetween_leads (hw : h.Wired S r) (hlist : list ∈ r.linked)
    (hne : r.next list ≠ list) (hp : p ∈ r.linked) (hpl : p ≠ list) (hnext : r.next p ≠ list) :
    Leads S h (listSpliceBetween h list p (r.next p)) ((r.exchange p list).leave list) := by
  -- `list` is exchanged into the ring of `p` first, and then left out of it
  obtain ⟨last, hlast⟩ := r.next.surjective list
  have hprev : r.next⁻¹ list = last := Equiv.Perm.inv_eq_iff_eq.mpr hlast.symm
  have hlastL : last ∈ r.linked := hprev ▸ r.next_inv_mem hlist
  have hlastp : last ≠ p := fun heq => hnext (heq ▸ hlast)
  have hlastlist : last ≠ list := fun heq => hne (heq ▸ hlast)
  have hback : (r.exchange p list).next⁻¹ list = last := by
    rw [Equiv.Perm.inv_eq_iff_eq, Rings.exchange_next, exchange_of_ne hlastp hlastlist, hlast]
  have hpnext : ((r.exchange p list).leave list).next p = r.next list := by
    rw [Rings.leave_next, isolate_apply, if_neg hpl, Rings.exchange_next, exchange_left, if_neg hne]
  have hlastnext : ((r.exchange p list).leave list).next last = r.next p := by
    rw [← hback]
    exact (isolate_prev _ _).trans (exchange_right _ _ _)
  have hM := hw.mapped
  have hpS := hw.within hp
  have hlastS := hw.within hlastL
  refine ⟨(h.link p (r.next list)).link last (r.next p), ?_, ?_, ⟨hM, ?_, ?_⟩⟩
  · rw [listSpliceBetween, hw.getNext hlist, ok_bind, hw.getPrev hlist, ok_bind, hprev,
      setPrev_ok (hM _ (hw.next_mem hlist)), ok_bind, setNext_ok (h := h.withPrev _ _) (hM _ hpS),
      ok_bind, setNext_ok (h := (h.withPrev _ _).withNext _ _) (hM _ hlastS), ok_bind,
      setPrev_ok (h := ((h.withPrev _ _).withNext _ _).withNext _ _) (hM _ (hw.next_mem hp))]
    rfl
  · exact ((Heap.Within.refl S h).link hpS (hw.next_mem hlist)).link hlastS (hw.next_mem hp)
  · exact (Finset.erase_subset _ _).trans
      (Finset.insert_subset hpS (Finset.insert_subset (hw.within hlist) hw.within))
  · have hstale := (hw.linked.exchange p list).isolate list
    rw [← Rings.exchange_next, hback] at hstale
    refine ((hstale.link hpnext).link hlastnext).mono fun x hx => ?_
    simp only [Rings.leave_linked, Rings.exchange_linked, Finset.mem_insert,
      Finset.mem_erase] at hx ⊢
    tauto

def splicedAt (r : Rings A) (list p : A) : Rings A :=
  if r.next list = list then r else (r.exchange p list).leave list

def splicedInitAt (r : Rings A) (list p : A) : Rings A :=
  if r.next list = list then r else (r.exchange p list).isolate list

theorem listSplice_leads (hw : h.Wired S r) (hlist : list ∈ r.linked) (hhead : head ∈ r.linked)
    (hne : head ≠ list) (hnext : r.next head ≠ list) :
    Leads S h (listSplice h list head) (splicedAt r list head) := by
  rw [listSplice, listEmpty_ok hw hlist, ok_bind, splicedAt]
  by_cases hself : r.next list = list
  · rw [if_pos (decide_eq_true hself), if_pos hself]
    exact .refl hw
  · rw [if_neg (by simpa using hself), if_neg hself, hw.getNext hhead, ok_bind]
    exact listSpliceBetween_leads hw hlist hself hhead hne hnext

theorem listSpliceInit_leads (hw : h.Wired S r) (hlist : list ∈ r.linked) (hhead : head ∈ r.linked)
    (hne : head ≠ list) (hnext : r.next head ≠ list) :
    Leads S h (listSpliceInit h list head) (splicedInitAt r list head) := by
  rw [listSpliceInit, listEmpty_ok hw hlist, ok_bind, splicedInitAt]
  by_cases hself : r.next list = list
  · rw [if_pos (decide_eq_true hself), if_pos hself]
    exact .refl hw
  · rw [if_neg (by simpa using hself), if_neg hself, hw.getNext hhead, ok_bind, ← Rings.leave_enter]
    exact (listSpliceBetween_leads hw hlist hself hhead hne hnext).bind fun _ hw' =>
      initListHead_leads hw' (hw.within hlist) (isolate_self _ _)

theorem listSpliceBetween_tail_leads (hw : h.Wired S r) (hlist : list ∈ r.linked)
    (hself : r.next list ≠ list) (hhead : head ∈ r.linked) (hne : head ≠ list)
    (hnext : r.next list ≠ head) :
    Leads S h (listSpliceBetween h list (r.next⁻¹ head) head)
      ((r.exchange (r.next⁻¹ head) list).leave list) := by
  have htail := listSpliceBetween_leads hw hlist hself (r.next_inv_mem hhead)
    (fun heq => hnext (Equiv.Perm.inv_eq_iff_eq.mp heq).symm) (by simpa using hne)
  rwa [← Equiv.Perm.mul_apply, mul_inv_cancel, Equiv.Perm.one_apply] at htail

theorem listSpliceTail_leads (hw : h.Wired S r) (hlist : list ∈ r.linked) (hhead : head ∈ r.linked)
    (hne : head ≠ list) (hnext : r.next list ≠ head) :
    Leads S h (listSpliceTail h list head) (splicedAt r list (r.next⁻¹ head)) := by
  rw [listSpliceTail, listEmpty_ok hw hlist, ok_bind, splicedAt]
  by_cases hself : r.next list = list
  · rw [if_pos (decide_eq_true hself), if_pos hself]
    exact .refl hw
  · rw [if_neg (by simpa using hself), if_neg hself, hw.getPrev hhead, ok_bind]
    exact listSpliceBetween_tail_leads hw hlist hself hhead hne hnext

theorem listSpliceTailInit_leads (hw : h.Wired S r) (hlist : list ∈ r.linked)
    (hhead : head ∈ r.linked) (hne : head ≠ list) (hnext : r.next list ≠ head) :
    Leads S h (listSpliceTailInit h list head) (splicedInitAt r list (r.next⁻¹ head)) := by
  rw [listSpliceTailInit, listEmpty_ok hw hlist, ok_bind, splicedInitAt]
  by_cases hself : r.next list = list
  · rw [if_pos (decide_eq_true hself), if_pos hself]
    exact .refl hw
  · rw [if_neg (by simpa using hself), if_neg hself, hw.getPrev hhead, ok_bind,
      ← Rings.leave_enter]
    exact (listSpliceBetween_tail_leads hw hlist hself hhead hne hnext).bind fun _ hw' =>
      initListHead_leads hw' (hw.within hlist) (isolate_self _ _)

end GoodCommand.KernelList
