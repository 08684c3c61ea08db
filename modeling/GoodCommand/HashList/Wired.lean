import GoodCommand.HashList.Defs
import GoodCommand.Library.Except
import GoodCommand.Library.Rings

/-! What a heap of `struct hlist_node` represents. A slot is followed by the slot inside the node
that it points to; the last slot of a list, which holds `NULL`, is followed by the head. -/

namespace GoodCommand.HashList

variable {H N : Type} [DecidableEq H] [DecidableEq N]

def Slot.node : Slot H N → Option N
  | .first _ => none
  | .next n => some n

/-! ### Heaps -/

section Heap

variable {h h' h'' : Heap H N} {s t : Slot H N} {n : N} {D D' : Finset (Slot H N)}

@[simp] theorem Heap.mapped_withTarget (h : Heap H N) (s : Slot H N) (p : Option N) :
    (h.withTarget s p).mapped = h.mapped := by
  funext t
  cases s <;> cases t <;> rfl

@[simp] theorem Heap.target_withTarget (h : Heap H N) (s : Slot H N) (p : Option N) :
    (h.withTarget s p).target = Function.update h.target s p := by
  funext t
  cases s <;> cases t <;> simp [withTarget, target, Function.update_apply]

@[simp] theorem Heap.pprev_withTarget (h : Heap H N) (s : Slot H N) (p : Option N) :
    (h.withTarget s p).pprev = h.pprev := by
  cases s <;> rfl

omit [DecidableEq H] in
@[simp] theorem Heap.mapped_withPprev (h : Heap H N) (n : N) (s : Option (Slot H N)) :
    (h.withPprev n s).mapped = h.mapped := by
  funext t
  cases t <;> rfl

omit [DecidableEq H] in
@[simp] theorem Heap.target_withPprev (h : Heap H N) (n : N) (s : Option (Slot H N)) :
    (h.withPprev n s).target = h.target := by
  funext t
  cases t <;> rfl

omit [DecidableEq H] in
@[simp] theorem Heap.pprev_withPprev (h : Heap H N) (n : N) (s : Option (Slot H N)) :
    (h.withPprev n s).pprev = Function.update h.pprev n s := rfl

omit [DecidableEq H] [DecidableEq N] in
theorem Heap.eq_of_members (hmapped : h.mapped = h'.mapped) (htarget : h.target = h'.target)
    (hpprev : h.pprev = h'.pprev) : h = h' := by
  cases h
  cases h'
  simp only [Heap.mk.injEq]
  exact ⟨funext fun hd => congrFun hmapped (.first hd), funext fun n => congrFun hmapped (.next n),
    funext fun hd => congrFun htarget (.first hd), funext fun n => congrFun htarget (.next n),
    hpprev⟩

omit [DecidableEq H] [DecidableEq N] in
theorem getTarget_ok (hs : h.mapped s) : getTarget h s = .ok (h.target s) := if_pos hs

omit [DecidableEq H] [DecidableEq N] in
theorem getPprev_ok (hn : h.mapped (.next n)) : getPprev h n = .ok (h.pprev n) := if_pos hn

theorem setTarget_ok (hs : h.mapped s) (p : Option N) :
    setTarget h (some s) p = .ok (h.withTarget s p) := if_pos hs

omit [DecidableEq H] in
theorem setPprev_ok (hn : h.mapped (.next n)) (s : Option (Slot H N)) :
    setPprev h n s = .ok (h.withPprev n s) := if_pos hn

theorem setMembers_ok (hn : h.mapped (.next n)) (p : Option N) (q : Option (Slot H N)) :
    (do let h ← setTarget h (some (.next n)) p; setPprev h n q) =
      .ok ((h.withTarget (.next n) p).withPprev n q) := by
  rw [setTarget_ok hn, ok_bind, setPprev_ok (by rwa [Heap.mapped_withTarget])]

def Heap.point (h : Heap H N) (s t : Slot H N) : Heap H N :=
  match t with
  | .first _ => h.withTarget s none
  | .next n => (h.withTarget s (some n)).withPprev n (some s)

@[simp] theorem Heap.mapped_point (h : Heap H N) (s t : Slot H N) :
    (h.point s t).mapped = h.mapped := by
  cases t <;> simp [point]

@[simp] theorem Heap.target_point (h : Heap H N) (s t : Slot H N) :
    (h.point s t).target = Function.update h.target s t.node := by
  cases t <;> simp [point, Slot.node]

@[simp] theorem Heap.pprev_point_first (h : Heap H N) (s : Slot H N) (hd : H) :
    (h.point s (.first hd)).pprev = h.pprev := by
  simp [point]

@[simp] theorem Heap.pprev_point_next (h : Heap H N) (s : Slot H N) (n : N) :
    (h.point s (.next n)).pprev = Function.update h.pprev n (some s) := by
  simp [point]

theorem setPprevOf_node (ht : h.mapped t) (s : Slot H N) :
    setPprevOf (h.withTarget s t.node) t.node (some s) = .ok (h.point s t) := by
  cases t with
  | first hd => rfl
  | next n => exact setPprev_ok (by simpa using ht) _

/-- Nothing but the members at the slots `D` differs. -/
structure Heap.Within (D : Finset (Slot H N)) (h h' : Heap H N) : Prop where
  mapped : h'.mapped = h.mapped
  target : ∀ s ∉ D, h'.target s = h.target s
  pprev : ∀ n, .next n ∉ D → h'.pprev n = h.pprev n

namespace Heap.Within

omit [DecidableEq H] [DecidableEq N] in
theorem refl (D : Finset (Slot H N)) (h : Heap H N) : h.Within D h :=
  ⟨rfl, fun _ _ => rfl, fun _ _ => rfl⟩

omit [DecidableEq H] [DecidableEq N] in
theorem trans (hfirst : h.Within D h') (hrest : h'.Within D h'') : h.Within D h'' where
  mapped := hrest.mapped.trans hfirst.mapped
  target s hs := (hrest.target s hs).trans (hfirst.target s hs)
  pprev n hn := (hrest.pprev n hn).trans (hfirst.pprev n hn)

omit [DecidableEq H] [DecidableEq N] in
theorem mono (hin : h.Within D h') (hsub : D ⊆ D') : h.Within D' h' where
  mapped := hin.mapped
  target s hs := hin.target s fun hmem => hs (hsub hmem)
  pprev n hn := hin.pprev n fun hmem => hn (hsub hmem)

theorem withTarget (hin : h.Within D h') (hs : s ∈ D) (p : Option N) :
    h.Within D (h'.withTarget s p) where
  mapped := by rw [Heap.mapped_withTarget, hin.mapped]
  target x hx := by
    rw [Heap.target_withTarget, Function.update_of_ne (ne_of_mem_of_not_mem hs hx).symm,
      hin.target x hx]
  pprev m hm := by rw [Heap.pprev_withTarget, hin.pprev m hm]

omit [DecidableEq H] in
theorem withPprev (hin : h.Within D h') (hn : .next n ∈ D) (s : Option (Slot H N)) :
    h.Within D (h'.withPprev n s) where
  mapped := by rw [Heap.mapped_withPprev, hin.mapped]
  target x hx := by rw [Heap.target_withPprev, hin.target x hx]
  pprev m hm := by
    have hne : m ≠ n := by
      rintro rfl
      exact hm hn
    rw [Heap.pprev_withPprev, Function.update_of_ne hne, hin.pprev m hm]

theorem members (h : Heap H N) (n : N) (p : Option N) (q : Option (Slot H N)) :
    h.Within {.next n} ((h.withTarget (.next n) p).withPprev n q) :=
  ((refl _ h).withTarget (Finset.mem_singleton_self _) p).withPprev (Finset.mem_singleton_self _) q

theorem point (hin : h.Within D h') (hs : s ∈ D) (ht : t ∈ D) : h.Within D (h'.point s t) := by
  cases t with
  | first hd => exact hin.withTarget hs _
  | next n => exact (hin.withTarget hs _).withPprev ht _

end Heap.Within

end Heap

/-! ### Rings on the heap -/

section Linked

variable {h : Heap H N} {σ : Equiv.Perm (Slot H N)} {L L' : Finset (Slot H N)} {s t : Slot H N}
variable {n : N} {hd old new : H}

/-- The slots `L` point to the nodes of their successors by `σ`, and these nodes back to them. -/
structure Heap.Linked (h : Heap H N) (σ : Equiv.Perm (Slot H N)) (L : Finset (Slot H N)) :
    Prop where
  target : ∀ s ∈ L, h.target s = (σ s).node
  pprev : ∀ s ∈ L, ∀ n, σ s = .next n → h.pprev n = some s

namespace Heap.Linked

omit [DecidableEq H] [DecidableEq N] in
theorem mono (hl : h.Linked σ L) (hsub : L' ⊆ L) : h.Linked σ L' where
  target s hs := hl.target s (hsub hs)
  pprev s hs := hl.pprev s (hsub hs)

theorem exchange (hl : h.Linked σ L) (a b : Slot H N) :
    h.Linked (GoodCommand.exchange σ a b) ((L.erase a).erase b) where
  target s hs := by
    simp only [Finset.mem_erase] at hs
    rw [exchange_of_ne hs.2.1 hs.1, hl.target s hs.2.2]
  pprev s hs n hn := by
    simp only [Finset.mem_erase] at hs
    rw [exchange_of_ne hs.2.1 hs.1] at hn
    exact hl.pprev s hs.2.2 n hn

theorem point (hl : h.Linked σ L) (ht : σ s = t) : (h.point s t).Linked σ (insert s L) where
  target x hx := by
    rw [Heap.target_point]
    rcases eq_or_ne x s with rfl | hne
    · rw [Function.update_self, ht]
    · rw [Function.update_of_ne hne, hl.target x (Finset.mem_of_mem_insert_of_ne hx hne)]
  pprev x hx n hn := by
    rcases eq_or_ne x s with rfl | hne
    · obtain rfl : t = .next n := ht.symm.trans hn
      rw [Heap.pprev_point_next, Function.update_self]
    · have hback := hl.pprev x (Finset.mem_of_mem_insert_of_ne hx hne) n hn
      cases t with
      | first hd => rwa [Heap.pprev_point_first]
      | next m =>
        have hnm : n ≠ m := by
          rintro rfl
          exact hne (σ.injective (hn.trans ht.symm))
        rwa [Heap.pprev_point_next, Function.update_of_ne hnm]

theorem withTarget (hl : h.Linked σ L) (hs : s ∉ L) (p : Option N) :
    (h.withTarget s p).Linked σ L where
  target x hx := by
    rw [Heap.target_withTarget, Function.update_of_ne (ne_of_mem_of_not_mem hx hs), hl.target x hx]
  pprev x hx n hn := by rw [Heap.pprev_withTarget, hl.pprev x hx n hn]

omit [DecidableEq H] in
theorem withPprev (hl : h.Linked σ L) (hn : ∀ x ∈ L, σ x ≠ .next n) (s : Option (Slot H N)) :
    (h.withPprev n s).Linked σ L where
  target x hx := by rw [Heap.target_withPprev, hl.target x hx]
  pprev x hx m hm := by
    have hne : m ≠ n := by
      rintro rfl
      exact hn x hx hm
    rw [Heap.pprev_withPprev, Function.update_of_ne hne, hl.pprev x hx m hm]

omit [DecidableEq H] [DecidableEq N] in
theorem congrNode {σ' : Equiv.Perm (Slot H N)} (hl : h.Linked σ L)
    (heq : ∀ s ∈ L, σ' s = σ s ∨ (σ' s).node = none ∧ (σ s).node = none) : h.Linked σ' L where
  target s hs := by
    rcases heq s hs with heq | ⟨hnone, hnone'⟩
    · rw [heq, hl.target s hs]
    · rw [hnone, hl.target s hs, hnone']
  pprev s hs n hn := by
    rcases heq s hs with heq | ⟨hnone, -⟩
    · exact hl.pprev s hs n (heq.symm.trans hn)
    · rw [hn] at hnone
      cases hnone

theorem isolateFirst (hl : h.Linked σ L) (hnew : σ (.first old) = .first new) :
    h.Linked (isolate σ (.first old)) L := by
  refine hl.congrNode fun s hs => ?_
  rw [isolate_apply]
  split_ifs with hself hprev
  · exact .inr ⟨rfl, by rw [hself, hnew]; rfl⟩
  · exact .inr ⟨by rw [hnew]; rfl, by rw [hprev]; rfl⟩
  · exact .inl rfl

end Heap.Linked

end Linked

/-- On the slots `S` of the heap there are the rings `r`. -/
structure Heap.Wired (S : Finset (Slot H N)) (h : Heap H N) (r : Rings (Slot H N)) : Prop where
  mapped : ∀ s ∈ S, h.mapped s
  within : r.linked ⊆ S
  linked : h.Linked r.next r.linked

def Leads (S D : Finset (Slot H N)) (h : Heap H N) (x : Except (WildPointer H N) (Heap H N))
    (r : Rings (Slot H N)) : Prop :=
  ∃ h', x = .ok h' ∧ h.Within D h' ∧ h'.Wired S r

section Wired

variable {S : Finset (Slot H N)} {h : Heap H N} {r : Rings (Slot H N)} {s t : Slot H N}
variable {n m : N} {hd old new : H}

namespace Heap.Wired

omit [DecidableEq H] [DecidableEq N] in
theorem pprev (hw : h.Wired S r) (hn : .next n ∈ r.linked) :
    h.pprev n = some (r.next⁻¹ (.next n)) := by
  refine hw.linked.pprev _ (r.next_inv_mem hn) n ?_
  rw [← Equiv.Perm.mul_apply, mul_inv_cancel, Equiv.Perm.one_apply]

theorem withTarget (hw : h.Wired S r) (hs : s ∉ r.linked) (p : Option N) :
    (h.withTarget s p).Wired S r where
  mapped x hx := by rw [Heap.mapped_withTarget, hw.mapped x hx]
  within := hw.within
  linked := hw.linked.withTarget hs p

omit [DecidableEq H] in
theorem withPprev (hw : h.Wired S r) (hn : .next n ∉ r.linked) (s : Option (Slot H N)) :
    (h.withPprev n s).Wired S r where
  mapped x hx := by rw [Heap.mapped_withPprev, hw.mapped x hx]
  within := hw.within
  linked := hw.linked.withPprev (fun _ hx => ne_of_mem_of_not_mem (r.next_mem hx) hn) s

theorem exchange {a b : Slot H N} (hw : h.Wired S r) (ha : a ∈ S) (hb : b ∈ S) :
    ((h.point b (r.next a)).point a (r.next b)).Wired S (r.exchange a b) where
  mapped x hx := by rw [Heap.mapped_point, Heap.mapped_point, hw.mapped x hx]
  within := by
    rw [Rings.exchange_linked]
    exact Finset.insert_subset ha (Finset.insert_subset hb hw.within)
  linked := by
    have hlink := ((hw.linked.exchange a b).point (exchange_right _ a b)).point
      (exchange_left _ a b)
    refine hlink.mono fun x hx => ?_
    simp only [Rings.exchange_linked, Finset.mem_insert, Finset.mem_erase] at hx ⊢
    tauto

theorem leave (hw : h.Wired S r) (s : Slot H N) :
    (h.point (r.next⁻¹ s) (r.next s)).Wired S (r.leave s) where
  mapped x hx := by rw [Heap.mapped_point, hw.mapped x hx]
  within := (Finset.erase_subset _ _).trans hw.within
  linked := by
    have hlink := (hw.linked.exchange (r.next⁻¹ s) s).point (isolate_prev r.next s)
    refine hlink.mono fun x hx => ?_
    simp only [Rings.leave_linked, Finset.mem_insert, Finset.mem_erase] at hx ⊢
    tauto

theorem isolateFirst (hw : h.Wired S r) (hold : .first old ∈ r.linked)
    (hnew : r.next (.first old) = .first new) : h.Wired S (r.isolate (.first old)) where
  mapped := hw.mapped
  within := Finset.insert_subset (hw.within hold) hw.within
  linked := by
    rw [Rings.isolate_linked, Finset.insert_eq_of_mem hold, Rings.isolate_next]
    exact hw.linked.isolateFirst hnew

end Heap.Wired

/-! ### Single functions -/

theorem initHlistHead_leads (hw : h.Wired S r) (hd : H) (hs : .first hd ∈ S)
    (halone : r.next (.first hd) = .first hd) :
    Leads S {.first hd} h (initHlistHead h hd) (r.enter (.first hd)) := by
  have hpoint : h.withTarget (.first hd) none = h.point (.first hd) (.first hd) := rfl
  refine ⟨_, setTarget_ok (hw.mapped _ hs) _, ?_, ?_⟩
  · exact (Heap.Within.refl _ h).withTarget (Finset.mem_singleton_self _) _
  · rw [hpoint]
    refine ⟨fun x hx => ?_, Finset.insert_subset hs hw.within, hw.linked.point halone⟩
    rw [Heap.mapped_point, hw.mapped x hx]

theorem hlistUnlink_leads (hw : h.Wired S r) (hn : .next n ∈ r.linked) :
    Leads S r.linked h (hlistUnlink h n) (r.leave (.next n)) := by
  have hprev := r.next_inv_mem hn
  have hnext := r.next_mem hn
  refine ⟨h.point (r.next⁻¹ (.next n)) (r.next (.next n)), ?_, ?_, hw.leave _⟩
  · have hmapped := hw.mapped _ (hw.within hn)
    rw [hlistUnlink, getTarget_ok hmapped, ok_bind, getPprev_ok hmapped, ok_bind, hw.pprev hn,
      setTarget_ok (hw.mapped _ (hw.within hprev)), ok_bind, hw.linked.target _ hn]
    exact setPprevOf_node (hw.mapped _ (hw.within hnext)) _
  · exact (Heap.Within.refl _ h).point hprev hnext

theorem hlistUnlink_fake (hn : h.mapped (.next n)) (hnext : h.next n = none)
    (hfake : h.pprev n = some (.next n)) :
    hlistUnlink h n = .ok (h.withTarget (.next n) none) := by
  rw [hlistUnlink, getTarget_ok hn, ok_bind, getPprev_ok hn, ok_bind, hfake, setTarget_ok hn,
    ok_bind, show h.target (.next n) = none from hnext]
  rfl

theorem hlistAddHead_leads (hw : h.Wired S r) (hn : .next n ∈ S)
    (halone : r.next (.next n) = .next n) (hhd : .first hd ∈ r.linked) :
    Leads S (insert (.next n) r.linked) h (hlistAddHead h n hd)
      (r.exchange (.first hd) (.next n)) := by
  have hfirst := r.next_mem hhd
  refine ⟨_, ?_, ?_, hw.exchange (hw.within hhd) hn⟩
  · rw [hlistAddHead, getTarget_ok (hw.mapped _ (hw.within hhd)), ok_bind,
      setTarget_ok (hw.mapped _ hn), ok_bind, hw.linked.target _ hhd,
      setPprevOf_node (hw.mapped _ (hw.within hfirst)), ok_bind, setTarget_ok, ok_bind,
      setPprev_ok]
    · rw [halone]
      rfl
    · simpa using hw.mapped _ hn
    · simpa using hw.mapped _ (hw.within hhd)
  · rw [halone]
    exact ((Heap.Within.refl _ h).point (Finset.mem_insert_self ..)
      (Finset.mem_insert_of_mem hfirst)).point (Finset.mem_insert_of_mem hhd)
      (Finset.mem_insert_self ..)

theorem hlistAddBefore_ok (hn : h.mapped (.next n)) (hm : h.mapped (.next m)) (hs : h.mapped s)
    (hpprev : h.pprev m = some s) (hne : n ≠ m) :
    hlistAddBefore h n m = .ok ((h.point (.next n) (.next m)).point s (.next n)) := by
  have hback : Function.update (Function.update h.pprev n (some s)) m (some (.next n)) n =
      some s := by
    rw [Function.update_of_ne hne, Function.update_self]
  rw [hlistAddBefore, getPprev_ok hm, ok_bind, hpprev, setPprev_ok hn, ok_bind,
    setTarget_ok (by simpa using hn), ok_bind, setPprev_ok (by simpa using hm), ok_bind,
    getPprev_ok (by simpa using hn), ok_bind, Heap.pprev_withPprev, Heap.pprev_withTarget,
    Heap.pprev_withPprev, hback, setTarget_ok (by simpa using hs)]
  refine congrArg Except.ok (Heap.eq_of_members (by simp) (by simp [Slot.node]) ?_)
  simpa using Function.update_comm hne ..

theorem hlistAddBehind_ok (hn : h.mapped (.next n)) (hm : h.mapped (.next m)) (ht : h.mapped t)
    (htarget : h.target (.next m) = t.node) (hnm : n ≠ m) (hnt : t ≠ .next n) :
    hlistAddBehind h n m = .ok ((h.point (.next n) t).point (.next m) (.next n)) := by
  have hslot : (Slot.next n : Slot H N) ≠ .next m := fun heq => hnm (Slot.next.inj heq)
  have hback : Function.update (Function.update h.target (.next n) t.node) (.next m) (some n)
      (.next n) = t.node := by
    rw [Function.update_of_ne hslot, Function.update_self]
  rw [hlistAddBehind, getTarget_ok hm, ok_bind, htarget, setTarget_ok hn, ok_bind,
    setTarget_ok (by simpa using hm), ok_bind, setPprev_ok (by simpa using hn), ok_bind,
    getTarget_ok (by simpa using hn), ok_bind, Heap.target_withPprev, Heap.target_withTarget,
    Heap.target_withTarget, hback]
  cases t with
  | first hd =>
    refine congrArg Except.ok (Heap.eq_of_members (by simp) ?_ (by simp))
    simp [Slot.node]
  | next k =>
    have hnk : k ≠ n := by
      rintro rfl
      exact hnt rfl
    refine (setPprev_ok (by simpa using ht) _).trans ?_
    refine congrArg Except.ok (Heap.eq_of_members (by simp) (by simp [Slot.node]) ?_)
    simpa using Function.update_comm hnk.symm ..

theorem hlistAddBefore_leads (hw : h.Wired S r) (hn : .next n ∈ S)
    (halone : r.next (.next n) = .next n) (hfree : .next n ∉ r.linked)
    (hm : .next m ∈ r.linked) :
    Leads S (insert (.next n) r.linked) h (hlistAddBefore h n m)
      (r.exchange (r.next⁻¹ (.next m)) (.next n)) := by
  have hprev := r.next_inv_mem hm
  have hne : n ≠ m := by
    rintro rfl
    exact hfree hm
  have hback : r.next (r.next⁻¹ (.next m)) = .next m := by
    rw [← Equiv.Perm.mul_apply, mul_inv_cancel, Equiv.Perm.one_apply]
  refine ⟨_, ?_, ?_, hw.exchange (hw.within hprev) hn⟩
  · rw [hback, halone]
    exact hlistAddBefore_ok (hw.mapped _ hn) (hw.mapped _ (hw.within hm))
      (hw.mapped _ (hw.within hprev)) (hw.pprev hm) hne
  · rw [hback, halone]
    exact ((Heap.Within.refl _ h).point (Finset.mem_insert_self ..)
      (Finset.mem_insert_of_mem hm)).point (Finset.mem_insert_of_mem hprev)
      (Finset.mem_insert_self ..)

theorem hlistAddBehind_leads (hw : h.Wired S r) (hn : .next n ∈ S)
    (halone : r.next (.next n) = .next n) (hfree : .next n ∉ r.linked)
    (hm : .next m ∈ r.linked) :
    Leads S (insert (.next n) r.linked) h (hlistAddBehind h n m)
      (r.exchange (.next m) (.next n)) := by
  have hnext := r.next_mem hm
  have hne : n ≠ m := by
    rintro rfl
    exact hfree hm
  refine ⟨_, ?_, ?_, hw.exchange (hw.within hm) hn⟩
  · rw [halone]
    exact hlistAddBehind_ok (hw.mapped _ hn) (hw.mapped _ (hw.within hm))
      (hw.mapped _ (hw.within hnext)) (hw.linked.target _ hm) hne (ne_of_mem_of_not_mem hnext hfree)
  · rw [halone]
    exact ((Heap.Within.refl _ h).point (Finset.mem_insert_self ..)
      (Finset.mem_insert_of_mem hnext)).point (Finset.mem_insert_of_mem hm)
      (Finset.mem_insert_self ..)

theorem hlistMoveList_leads (hw : h.Wired S r) (hold : .first old ∈ r.linked)
    (hnew : .first new ∈ S) (halone : r.next (.first new) = .first new) :
    Leads S (insert (.first new) r.linked) h (hlistMoveList h old new)
      ((r.exchange (.first old) (.first new)).isolate (.first old)) := by
  have hfirst := r.next_mem hold
  have hw' := hw.exchange (hw.within hold) hnew
  refine ⟨_, ?_, ?_, hw'.isolateFirst (Finset.mem_insert_self ..)
    ((exchange_left _ _ _).trans halone)⟩
  · rw [halone, hlistMoveList, getTarget_ok (hw.mapped _ (hw.within hold)), ok_bind,
      setTarget_ok (hw.mapped _ hnew), ok_bind, hw.linked.target _ hold,
      getTarget_ok (by simpa using hw.mapped _ hnew), ok_bind, Heap.target_withTarget,
      Function.update_self, setPprevOf_node (hw.mapped _ (hw.within hfirst)), ok_bind,
      setTarget_ok (by simpa using hw.mapped _ (hw.within hold))]
    rfl
  · rw [halone]
    exact ((Heap.Within.refl _ h).point (Finset.mem_insert_self ..)
      (Finset.mem_insert_of_mem hfirst)).point (Finset.mem_insert_of_mem hold)
      (Finset.mem_insert_self ..)

end Wired

end GoodCommand.HashList
