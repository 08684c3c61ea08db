import GoodCommand.HashList.Wired
import GoodCommand.Library.RingLists

/-! What the lists with a single pointer list head are for: nodes, each on a list or on none. -/

namespace GoodCommand.HashList
open GoodCommand.Lists (set_self set_of_ne set_comm set_after_drop set_eq_self getLastD_mem)

variable {H N : Type}

/-! ### Tables -/

/-- A node that is on no list: `INIT_HLIST_NODE` has been called for it, or `hlist_add_fake`. -/
inductive Loose where
  | idle
  | fake
  deriving DecidableEq

/-- The heads, each with the nodes of its list, and the loose nodes. Nothing is known of the other
nodes. -/
@[ext] structure Table (H N : Type) where
  lists : H → Option (List N)
  loose : N → Option Loose

namespace Table

def Listed (t : Table H N) (n : N) : Prop := ∃ hd xs, t.lists hd = some xs ∧ n ∈ xs

def slots (t : Table H N) : Lists (Slot H N)
  | .first hd => (t.lists hd).map (List.map .next)
  | .next _ => none

variable {t : Table H N} {hd : H} {n : N} {xs : List N}

theorem slots_first (hhd : t.lists hd = some xs) : t.slots (.first hd) = some (xs.map .next) := by
  simp [slots, hhd]

theorem has_next : t.slots.Has (.next n) ↔ t.Listed n := by
  constructor
  · rintro ⟨hd | m, ys, hys, hmem⟩
    · obtain ⟨xs, hxs, rfl⟩ := Option.map_eq_some_iff.mp hys
      simp only [List.mem_cons, reduceCtorEq, List.mem_map, Slot.next.injEq, exists_eq_right,
        false_or] at hmem
      exact ⟨hd, xs, hxs, hmem⟩
    · cases hys
  · rintro ⟨hd, xs, hxs, hmem⟩
    exact ⟨.first hd, _, slots_first hxs, List.mem_cons_of_mem _ (List.mem_map_of_mem hmem)⟩

theorem first_notMem {b : Slot H N} {ys : List (Slot H N)} (hb : t.slots b = some ys) :
    .first hd ∉ ys := by
  cases b with
  | first hd' =>
    obtain ⟨xs, -, rfl⟩ := Option.map_eq_some_iff.mp hb
    simp
  | next n => cases hb

end Table

/-! ### Tables on the heap -/

def Loose.pprev (n : N) : Loose → Option (Slot H N)
  | idle => none
  | fake => some (.next n)

/-- The rings on the heap, with those cells only that are on a list, are the lists of the table, and
the loose nodes are loose. -/
structure Heap.Models (S : Finset (Slot H N)) (h : Heap H N) (t : Table H N)
    (r : Rings (Slot H N)) : Prop where
  wired : h.Wired S r
  holds : t.slots.Holds r
  tracked : ∀ s ∈ r.linked, t.slots.Has s
  unlisted : ∀ n l, t.loose n = some l → ¬t.Listed n
  loose : ∀ n l, t.loose n = some l → .next n ∈ S ∧ h.next n = none ∧ h.pprev n = l.pprev n

/-- On the slots `S` of the heap there is the table `t`. -/
def Heap.Represents (S : Finset (Slot H N)) (h : Heap H N) (t : Table H N) : Prop :=
  ∃ r, h.Models S t r

/-- The pointers lead from the slot `s` through the nodes `xs`, in order, to `NULL`, and each node
points back to the slot that it is reached from. -/
def Heap.IsList (h : Heap H N) : Slot H N → List N → Prop
  | s, [] => h.target s = none
  | s, n :: xs => h.target s = some n ∧ h.pprev n = some s ∧ h.IsList (.next n) xs

def LeadsTo (S D : Finset (Slot H N)) (h : Heap H N) (x : Except (WildPointer H N) (Heap H N))
    (t : Table H N) : Prop :=
  ∃ h' r, x = .ok h' ∧ h.Within D h' ∧ h'.Models S t r

theorem LeadsTo.mono {S D D' : Finset (Slot H N)} {h : Heap H N}
    {x : Except (WildPointer H N) (Heap H N)} {t : Table H N} (hx : LeadsTo S D h x t)
    (hsub : D ⊆ D') : LeadsTo S D' h x t := by
  obtain ⟨h', r, hrun, hin, hm⟩ := hx
  exact ⟨h', r, hrun, hin.mono hsub, hm⟩

theorem LeadsTo.bind {S D D' : Finset (Slot H N)} {h : Heap H N} {t t' : Table H N}
    {x : Except (WildPointer H N) (Heap H N)} {f : Heap H N → Except (WildPointer H N) (Heap H N)}
    (hx : LeadsTo S D h x t) (hf : ∀ h' r, h'.Models S t r → LeadsTo S D' h' (f h') t')
    (hsub : D' ⊆ D) : LeadsTo S D h (x >>= f) t' := by
  obtain ⟨h', r, rfl, hin, hm⟩ := hx
  obtain ⟨h'', r', hrun, hin', hm'⟩ := hf h' r hm
  exact ⟨h'', r', hrun, hin.trans (hin'.mono hsub), hm'⟩

section Models

variable {S : Finset (Slot H N)} {h : Heap H N} {t : Table H N} {r : Rings (Slot H N)} {n : N}
variable {hd : H} {xs : List N}

namespace Heap.Models

theorem node_linked (hm : h.Models S t r) (hhd : t.lists hd = some xs) (hn : n ∈ xs) :
    .next n ∈ r.linked :=
  hm.holds.entry_linked (Table.slots_first hhd) (List.mem_cons_of_mem _ (List.mem_map_of_mem hn))

theorem head_linked (hm : h.Models S t r) (hhd : t.lists hd = some xs) : .first hd ∈ r.linked :=
  hm.holds.linked _ _ (Table.slots_first hhd)

theorem ring (hm : h.Models S t r) (hhd : t.lists hd = some xs) :
    RingAt r.next (.first hd) (xs.map .next) :=
  hm.holds.ring _ _ (Table.slots_first hhd)

theorem notMem_linked (hm : h.Models S t r) (hfree : ¬t.Listed n) : .next n ∉ r.linked :=
  fun hmem => hfree (Table.has_next.mp (hm.tracked _ hmem))

theorem isList (hm : h.Models S t r) (hhd : t.lists hd = some xs) : h.IsList (.first hd) xs := by
  have hchain : ∀ s ys, s ∈ r.linked →
      (s :: (ys.map Slot.next ++ [.first hd])).IsChain (fun a b => r.next a = b) →
      h.IsList s ys := by
    intro s ys hs hys
    induction ys generalizing s with
    | nil =>
      have hlast := (List.isChain_cons_cons.mp hys).1
      exact (hm.wired.linked.target s hs).trans (by rw [hlast]; rfl)
    | cons n ys ih =>
      rw [List.map_cons, List.cons_append, List.isChain_cons_cons] at hys
      refine ⟨(hm.wired.linked.target s hs).trans (by rw [hys.1]; rfl), ?_, ih _ ?_ hys.2⟩
      · exact hm.wired.linked.pprev s hs n hys.1
      · exact hys.1 ▸ r.next_mem hs
  exact hchain _ xs (hm.head_linked hhd) (hm.ring hhd).chain

theorem free_alone (hm : h.Models S t r) (hfree : ¬t.Listed n) : r.next (.next n) = .next n :=
  hm.holds.alone _ fun hhas => hfree (Table.has_next.mp hhas)

end Heap.Models

end Models

/-! ### Changes -/

variable [DecidableEq H] [DecidableEq N]

namespace Table

def set (t : Table H N) (hd : H) (xs : List N) : Table H N :=
  { t with lists := Function.update t.lists hd (some xs) }

def loosen (t : Table H N) (n : N) (l : Loose) : Table H N :=
  { t with loose := Function.update t.loose n (some l) }

def forget (t : Table H N) (n : N) : Table H N :=
  { t with loose := Function.update t.loose n none }

variable {t : Table H N} {hd : H} {n : N} {l : Loose} {xs : List N}

omit [DecidableEq H] in
@[simp] theorem slots_forget : (t.forget n).slots = t.slots := rfl

@[simp] theorem slots_set : (t.set hd xs).slots = t.slots.set (.first hd) (xs.map .next) := by
  funext s
  cases s with
  | first h => by_cases heq : h = hd <;> simp [slots, set, Lists.set, heq]
  | next m => simp [slots, Lists.set]

end Table

section Changes

variable {S : Finset (Slot H N)} {h : Heap H N} {t t' : Table H N} {r r' : Rings (Slot H N)}
variable {s : Slot H N} {n m : N} {hd old new : H} {as bs xs : List N} {l : Loose}

omit [DecidableEq H] in
theorem Table.loose_forget : (t.forget n).loose m = some l ↔ m ≠ n ∧ t.loose m = some l := by
  by_cases hmn : m = n <;> simp [forget, hmn]

omit [DecidableEq H] in
theorem Table.loose_loosen {k : Loose} (hloose : (t.loosen n l).loose m = some k) :
    m = n ∧ k = l ∨ m ≠ n ∧ t.loose m = some k := by
  change Function.update t.loose n (some l) m = some k at hloose
  rcases eq_or_ne m n with rfl | hne
  · rw [Function.update_self, Option.some.injEq] at hloose
    exact .inl ⟨rfl, hloose.symm⟩
  · rw [Function.update_of_ne hne] at hloose
    exact .inr ⟨hne, hloose⟩

omit [DecidableEq H] in
theorem Table.forget_eq_self (hn : t.loose n = none) : t.forget n = t := by
  rw [forget, ← hn, Function.update_eq_self]

theorem Heap.withTarget_self (h : Heap H N) (s : Slot H N) : h.withTarget s (h.target s) = h := by
  refine Heap.eq_of_members (by simp) ?_ (by simp)
  rw [Heap.target_withTarget, Function.update_eq_self]

namespace Heap.Models

theorem leads {x : Except (WildPointer H N) (Heap H N)} (hm : h.Models S t r)
    (hx : Leads S (insert s r.linked) h x r') (hT : t'.slots.Holds r')
    (htracked : ∀ a ∈ r'.linked, t'.slots.Has a) (hsub : r'.linked ⊆ insert s r.linked)
    (hloose : ∀ m l, t'.loose m = some l → t.loose m = some l ∧ .next m ≠ s) :
    LeadsTo S (insert s r.linked) h x t' := by
  obtain ⟨h', hrun, hin, hw⟩ := hx
  have hout : ∀ m l, t'.loose m = some l → .next m ∉ insert s r.linked := by
    intro m l hm'
    obtain ⟨hold, hne⟩ := hloose m l hm'
    rw [Finset.mem_insert, not_or]
    exact ⟨hne, hm.notMem_linked (hm.unlisted m l hold)⟩
  refine ⟨h', r', hrun, hin, hw, hT, htracked, fun m l hm' hlisted => ?_, fun m l hm' => ?_⟩
  · obtain ⟨hd, xs, hhd, hmem⟩ := hlisted
    exact hout m l hm' (hsub (hT.entry_linked (Table.slots_first hhd)
      (List.mem_cons_of_mem _ (List.mem_map_of_mem hmem))))
  · obtain ⟨hmem, hnext, hpprev⟩ := hm.loose m l (hloose m l hm').1
    exact ⟨hmem, (hin.target _ (hout m l hm')).trans hnext,
      (hin.pprev _ (hout m l hm')).trans hpprev⟩

theorem forget (hm : h.Models S t r) (hfree : ¬t.Listed n) (p : Option N)
    (q : Option (Slot H N)) :
    ((h.withTarget (.next n) p).withPprev n q).Models S (t.forget n) r where
  wired := (hm.wired.withTarget (hm.notMem_linked hfree) p).withPprev (hm.notMem_linked hfree) q
  holds := hm.holds
  tracked := hm.tracked
  unlisted m l hloose := hm.unlisted m l (Table.loose_forget.mp hloose).2
  loose m l hloose := by
    obtain ⟨hne, hloose⟩ := Table.loose_forget.mp hloose
    obtain ⟨hmem, hnext, hpprev⟩ := hm.loose m l hloose
    refine ⟨hmem, ?_, ?_⟩
    · exact (Function.update_of_ne hne _ _).trans hnext
    · rwa [Heap.pprev_withPprev, Heap.pprev_withTarget, Function.update_of_ne hne]

omit [DecidableEq H] in
theorem loosen (hm : h.Models S (t.forget n) r) (hn : .next n ∈ S) (hfree : ¬t.Listed n)
    (hnext : h.next n = none) (hpprev : h.pprev n = l.pprev n) : h.Models S (t.loosen n l) r where
  wired := hm.wired
  holds := hm.holds
  tracked := hm.tracked
  unlisted m k hloose := by
    rcases Table.loose_loosen hloose with ⟨rfl, -⟩ | hloose
    · exact hfree
    · exact hm.unlisted m k (Table.loose_forget.mpr hloose)
  loose m k hloose := by
    rcases Table.loose_loosen hloose with ⟨rfl, rfl⟩ | hloose
    · exact ⟨hn, hnext, hpprev⟩
    · exact hm.loose m k (Table.loose_forget.mpr hloose)

theorem initHlistNode (hm : h.Models S t r) (hn : .next n ∈ S) (hfree : ¬t.Listed n) :
    LeadsTo S {.next n} h (HashList.initHlistNode h n) (t.loosen n .idle) := by
  refine ⟨_, r, setMembers_ok (hm.wired.mapped _ hn) none none, .members h n none none, ?_⟩
  apply (hm.forget hfree none none).loosen hn hfree
  · exact Function.update_self ..
  · exact Function.update_self ..

theorem leave (hm : h.Models S t r) (hhd : t.lists hd = some (as ++ n :: bs)) :
    (t.set hd (as ++ bs)).slots.Holds (r.leave (.next n)) := by
  rw [Table.slots_set, List.map_append]
  exact hm.holds.leave (by rw [Table.slots_first hhd, List.map_append, List.map_cons])

theorem leave_free (hm : h.Models S t r) (hhd : t.lists hd = some (as ++ n :: bs)) :
    ¬(t.set hd (as ++ bs)).Listed n := fun hlisted =>
  (hm.leave hhd).not_has (Table.has_next.mpr hlisted)

omit [DecidableEq H] [DecidableEq N] in
theorem loose_eq_none (hm : h.Models S t r) (hlisted : t.Listed n) : t.loose n = none := by
  cases hloose : t.loose n with
  | none => rfl
  | some l => exact absurd hlisted (hm.unlisted n l hloose)

theorem hlistUnlink (hm : h.Models S t r) (hhd : t.lists hd = some (as ++ n :: bs)) :
    LeadsTo S (insert (.next n) r.linked) h (HashList.hlistUnlink h n)
      (t.set hd (as ++ bs)) := by
  have hn := hm.node_linked hhd (List.mem_append_right _ List.mem_cons_self)
  have hleads := hlistUnlink_leads hm.wired hn
  rw [← Finset.insert_eq_of_mem hn] at hleads
  refine hm.leads hleads (hm.leave hhd) (fun a ha => ?_) ?_ fun m l hloose => ⟨hloose, ?_⟩
  · rw [Rings.leave_linked, Finset.mem_erase] at ha
    rw [Table.slots_set]
    refine (hm.tracked a ha.2).set (Table.slots_first hhd) fun hmem => ?_
    simp only [List.map_append, List.map_cons, List.mem_cons, List.mem_append] at hmem ⊢
    tauto
  · exact (Finset.erase_subset _ _).trans (Finset.subset_insert _ _)
  · rintro heq
    obtain rfl := Slot.next.inj heq
    exact hm.unlisted m l hloose ⟨hd, _, hhd, by simp⟩

theorem setMembers (hm : h.Models S t r) (hn : .next n ∈ S) (hfree : ¬t.Listed n) (p : Option N)
    (q : Option (Slot H N)) : LeadsTo S {.next n} h
      (do let h ← setTarget h (some (.next n)) p; setPprev h n q) (t.forget n) :=
  ⟨_, r, setMembers_ok (hm.wired.mapped _ hn) p q, .members h n p q, hm.forget hfree p q⟩

theorem hlistDel (c : Constants H N) (hm : h.Models S t r)
    (hhd : t.lists hd = some (as ++ n :: bs)) :
    LeadsTo S (insert (.next n) r.linked) h (HashList.hlistDel c h n) (t.set hd (as ++ bs)) := by
  have hn := hm.wired.within (hm.node_linked hhd (List.mem_append_right _ List.mem_cons_self))
  have hnone : (t.set hd (as ++ bs)).loose n = none := hm.loose_eq_none ⟨hd, _, hhd, by simp⟩
  have hpoison := (hm.hlistUnlink hhd).bind
    (fun h' r' hm' => hm'.setMembers hn (hm.leave_free hhd) (some c.poison1) (some c.poison2))
    (Finset.singleton_subset_iff.mpr (Finset.mem_insert_self ..))
  rwa [Table.forget_eq_self hnone] at hpoison

theorem hlistDelInit (hm : h.Models S t r) (hhd : t.lists hd = some (as ++ n :: bs)) :
    LeadsTo S (insert (.next n) r.linked) h (HashList.hlistDelInit h n)
      ((t.set hd (as ++ bs)).loosen n .idle) := by
  have hlinked := hm.node_linked hhd (List.mem_append_right _ List.mem_cons_self)
  have hn := hm.wired.within hlinked
  have hhashed : hlistUnhashed h n = .ok false := by
    rw [hlistUnhashed, getPprev_ok (hm.wired.mapped _ hn), hm.wired.pprev hlinked]
    rfl
  rw [HashList.hlistDelInit, hhashed]
  exact (hm.hlistUnlink hhd).bind (fun h' r' hm' => hm'.initHlistNode hn (hm.leave_free hhd))
    (Finset.singleton_subset_iff.mpr (Finset.mem_insert_self ..))

theorem hlistDelInit_loose (hm : h.Models S t r) (hn : t.loose n = some l) :
    LeadsTo S {.next n} h (HashList.hlistDelInit h n) (t.loosen n .idle) := by
  obtain ⟨hmem, hnext, hpprev⟩ := hm.loose n l hn
  have hmapped := hm.wired.mapped _ hmem
  have hfree := hm.unlisted n l hn
  cases l with
  | idle =>
    have hunhashed : hlistUnhashed h n = .ok true := by
      rw [hlistUnhashed, getPprev_ok hmapped, hpprev]
      rfl
    have hsame : t.loosen n .idle = t := by
      rw [Table.loosen, ← hn, Function.update_eq_self]
    rw [HashList.hlistDelInit, hunhashed, hsame]
    exact ⟨h, r, rfl, .refl _ h, hm⟩
  | fake =>
    have hhashed : hlistUnhashed h n = .ok false := by
      rw [hlistUnhashed, getPprev_ok hmapped, hpprev]
      rfl
    have hself : h.withTarget (.next n) none = h := by
      rw [← hnext]
      exact h.withTarget_self (.next n)
    rw [HashList.hlistDelInit, hhashed, ok_bind, if_neg (by simp),
      hlistUnlink_fake hmapped hnext hpprev, hself]
    exact hm.initHlistNode hmem hfree

theorem hlistDel_fake (c : Constants H N) (hm : h.Models S t r) (hn : t.loose n = some .fake) :
    LeadsTo S {.next n} h (HashList.hlistDel c h n) (t.forget n) := by
  obtain ⟨hmem, hnext, hpprev⟩ := hm.loose n .fake hn
  have hself : h.withTarget (.next n) none = h := by
    rw [← hnext]
    exact h.withTarget_self (.next n)
  rw [HashList.hlistDel, hlistUnlink_fake (hm.wired.mapped _ hmem) hnext hpprev, hself]
  exact hm.setMembers hmem (hm.unlisted n .fake hn) (some c.poison1) (some c.poison2)

theorem hlistAddFake (hm : h.Models S t r) (hn : t.loose n = some l) :
    LeadsTo S {.next n} h (HashList.hlistAddFake h n) (t.loosen n .fake) := by
  obtain ⟨hmem, hnext, hpprev⟩ := hm.loose n l hn
  have hfree := hm.unlisted n l hn
  have hforget := hm.forget hfree (h.target (.next n)) (some (.next n))
  rw [Heap.withTarget_self] at hforget
  refine ⟨_, r, setPprev_ok (hm.wired.mapped _ hmem) _, ?_, hforget.loosen hmem hfree hnext ?_⟩
  · exact (Heap.Within.refl _ h).withPprev (Finset.mem_singleton_self _) _
  · exact Function.update_self ..

theorem add {x : Except (WildPointer H N) (Heap H N)} (hm : h.Models S t r) (hfree : ¬t.Listed n)
    (hhd : t.lists hd = some (as ++ bs))
    (hx : Leads S (insert (.next n) r.linked) h x
      (r.exchange ((as.map .next).getLastD (.first hd)) (.next n))) :
    LeadsTo S (insert (.next n) r.linked) h x ((t.forget n).set hd (as ++ n :: bs)) := by
  have hslots := Table.slots_first hhd
  -- the cell that is to point to `n` is that of the last of `as`, or the head
  have hlast := getLastD_mem (.first hd) (as.map Slot.next) (bs.map Slot.next)
  rw [← List.map_append] at hlast
  have hlinked := hm.holds.entry_linked hslots hlast
  have hins := hm.holds.insert (fun hhas => hfree (Table.has_next.mp hhas))
    (show t.slots (.first hd) = _ by rw [hslots, List.map_append])
  rw [← List.map_cons, ← List.map_append, ← Table.slots_forget (t := t) (n := n),
    ← Table.slots_set] at hins
  refine hm.leads hx hins (fun a ha => ?_) ?_ fun m l hloose => ?_
  · rw [Table.slots_set, Table.slots_forget]
    rw [Rings.exchange_linked, Finset.mem_insert, Finset.mem_insert] at ha
    rcases ha with rfl | rfl | ha
    · refine Lists.has_set_self ?_
      simp only [List.map_append, List.map_cons, List.mem_cons, List.mem_append] at hlast ⊢
      tauto
    · exact Lists.has_set_self (by simp)
    · refine (hm.tracked a ha).set hslots fun hmem => ?_
      simp only [List.map_append, List.map_cons, List.mem_cons, List.mem_append] at hmem ⊢
      tauto
  · rw [Rings.exchange_linked]
    exact Finset.insert_subset (Finset.mem_insert_of_mem hlinked) subset_rfl
  · obtain ⟨hne, hloose⟩ := Table.loose_forget.mp hloose
    exact ⟨hloose, fun heq => hne (Slot.next.inj heq)⟩

theorem hlistAddHead (hm : h.Models S t r) (hn : .next n ∈ S) (hfree : ¬t.Listed n)
    (hhd : t.lists hd = some xs) :
    LeadsTo S (insert (.next n) r.linked) h (HashList.hlistAddHead h n hd)
      ((t.forget n).set hd (n :: xs)) :=
  hm.add hfree (show t.lists hd = some ([] ++ xs) from hhd)
    (hlistAddHead_leads hm.wired hn (hm.free_alone hfree) (hm.head_linked hhd))

theorem hlistAddBefore (hm : h.Models S t r) (hn : .next n ∈ S) (hfree : ¬t.Listed n)
    (hhd : t.lists hd = some (as ++ m :: bs)) :
    LeadsTo S (insert (.next n) r.linked) h (HashList.hlistAddBefore h n m)
      ((t.forget n).set hd (as ++ n :: m :: bs)) := by
  have hring := hm.ring hhd
  rw [List.map_append, List.map_cons] at hring
  have hprev : r.next⁻¹ (.next m) = (as.map .next).getLastD (.first hd) := by
    rw [Equiv.Perm.inv_eq_iff_eq, hring.apply_getLastD]
    rfl
  have hleads := hlistAddBefore_leads hm.wired hn (hm.free_alone hfree) (hm.notMem_linked hfree)
    (hm.node_linked hhd (List.mem_append_right _ List.mem_cons_self))
  rw [hprev] at hleads
  exact hm.add hfree hhd hleads

theorem hlistAddBehind (hm : h.Models S t r) (hn : .next n ∈ S) (hfree : ¬t.Listed n)
    (hhd : t.lists hd = some (as ++ m :: bs)) :
    LeadsTo S (insert (.next n) r.linked) h (HashList.hlistAddBehind h n m)
      ((t.forget n).set hd (as ++ m :: n :: bs)) := by
  have hleads := hlistAddBehind_leads hm.wired hn (hm.free_alone hfree) (hm.notMem_linked hfree)
    (hm.node_linked hhd (List.mem_append_right _ List.mem_cons_self))
  rw [List.append_cons] at hhd ⊢
  refine hm.add hfree hhd ?_
  rwa [List.map_append, List.map_singleton, List.getLastD_concat]

theorem initHlistHead (hm : h.Models S t r) (hhd : .first hd ∈ S) (hnew : t.lists hd = none) :
    LeadsTo S (insert (.first hd) r.linked) h (HashList.initHlistHead h hd) (t.set hd []) := by
  have hfree : ¬t.slots.Has (.first hd) := by
    rintro ⟨b, ys, hb, hmem⟩
    rcases List.mem_cons.mp hmem with rfl | hmem
    · simp [Table.slots, hnew] at hb
    · exact Table.first_notMem hb hmem
  obtain ⟨h', hrun, hin, hw⟩ := initHlistHead_leads hm.wired hd hhd (hm.holds.alone _ hfree)
  have henter := hm.holds.enter hfree
  rw [← List.map_nil (f := Slot.next), ← Table.slots_set] at henter
  refine hm.leads ⟨h', hrun, hin.mono ?_, hw⟩ henter (fun a ha => ?_) subset_rfl fun m l hloose =>
    ⟨hloose, by simp⟩
  · exact Finset.singleton_subset_iff.mpr (Finset.mem_insert_self ..)
  · rw [Table.slots_set]
    rcases Finset.mem_insert.mp ha with rfl | ha
    · exact Lists.has_set_self List.mem_cons_self
    · obtain ⟨b, ys, hb, hmem⟩ := hm.tracked a ha
      refine ⟨b, ys, (set_of_ne ?_).trans hb, hmem⟩
      rintro rfl
      exact hfree ⟨_, ys, hb, List.mem_cons_self⟩

theorem initHlistHead_again (hm : h.Models S t r) (hhd : t.lists hd = some []) :
    LeadsTo S {.first hd} h (HashList.initHlistHead h hd) t := by
  have hlinked := hm.head_linked hhd
  obtain ⟨h', hrun, hin, hw⟩ := initHlistHead_leads hm.wired hd (hm.wired.within hlinked)
    (ringAt_nil_iff.mp (hm.ring hhd))
  rw [Rings.enter_of_mem _ hlinked] at hw
  refine ⟨h', r, hrun, hin, hw, hm.holds, hm.tracked, hm.unlisted, fun n l hn => ?_⟩
  obtain ⟨hmem, hnext, hpprev⟩ := hm.loose n l hn
  exact ⟨hmem, (hin.target (.next n) (by simp)).trans hnext,
    (hin.pprev n (by simp)).trans hpprev⟩

theorem hlistMoveList (hm : h.Models S t r) (hne : old ≠ new) (hold : t.lists old = some xs)
    (hmem : .first new ∈ S) (hnew : t.lists new = none ∨ t.lists new = some []) :
    LeadsTo S (insert (.first new) r.linked) h (HashList.hlistMoveList h old new)
      ((t.set new xs).set old []) := by
  have hslot : (Slot.first new : Slot H N) ≠ .first old := fun heq => hne (Slot.first.inj heq).symm
  -- what `new` has pointed to is overwritten, so it may as well have been no head
  have hdrop : (t.slots.drop (.first new)).Holds r := by
    rcases hnew with hnew | hnew
    · have hnone : t.slots (.first new) = none := by simp [Table.slots, hnew]
      rw [Lists.drop, ← hnone, Function.update_eq_self]
      exact hm.holds
    · exact hm.holds.dropEmpty (Table.slots_first hnew)
  have hfree : ¬(t.slots.drop (.first new)).Has (.first new) := by
    rintro ⟨b, ys, hb, hmem⟩
    by_cases heq : b = .first new
    · subst heq
      simp at hb
    · rw [Lists.drop_of_ne heq] at hb
      exact (List.mem_cons.mp hmem).elim (fun hb => heq hb.symm) (Table.first_notMem hb)
  have hreplace := hdrop.replaceHead hfree ((Lists.drop_of_ne hslot.symm).trans
    (Table.slots_first hold))
  have henter := hreplace.enter hreplace.not_has
  rw [Rings.leave_enter, set_comm _ hslot, set_after_drop, set_comm _ hslot.symm, set_after_drop,
    ← Table.slots_set, ← List.map_nil (f := Slot.next), ← Table.slots_set] at henter
  refine hm.leads (hlistMoveList_leads hm.wired (hm.head_linked hold) hmem (hdrop.alone _ hfree))
    henter (fun a ha => ?_) ?_ fun m l hloose => ⟨hloose, by simp⟩
  · rw [Table.slots_set, Table.slots_set]
    have hmoved : ∀ b ∈ Slot.first new :: xs.map Slot.next,
        ((t.slots.set (.first new) (xs.map .next)).set (.first old) []).Has b := fun b hb =>
      ⟨_, _, (set_of_ne hslot).trans (set_self ..), hb⟩
    simp only [Rings.isolate_linked, Rings.exchange_linked, Finset.mem_insert] at ha
    rcases ha with rfl | rfl | rfl | ha
    · exact Lists.has_set_self List.mem_cons_self
    · exact Lists.has_set_self List.mem_cons_self
    · exact hmoved _ List.mem_cons_self
    · obtain ⟨b, ys, hb, hab⟩ := hm.tracked a ha
      rcases eq_or_ne b (.first old) with rfl | hbold
      · -- the nodes of `old` are under `new` now
        obtain rfl := Option.some.inj (hb.symm.trans (Table.slots_first hold))
        rcases List.mem_cons.mp hab with rfl | hab
        · exact Lists.has_set_self List.mem_cons_self
        · exact hmoved a (List.mem_cons_of_mem _ hab)
      · rcases eq_or_ne b (.first new) with rfl | hbnew
        · have hys : ys = [] := by
            rcases hnew with hnew | hnew <;> simp_all [Table.slots]
          rw [hys, List.mem_singleton] at hab
          exact hmoved a (hab ▸ List.mem_cons_self)
        · exact ⟨b, ys, (set_of_ne hbold).trans ((set_of_ne hbnew).trans hb), hab⟩
  · have hlinked := hm.head_linked hold
    simp only [Rings.isolate_linked, Rings.exchange_linked, Finset.insert_subset_iff,
      Finset.mem_insert, hlinked, or_true, true_or, true_and]
    exact Finset.subset_insert _ _

end Heap.Models

end Changes

end GoodCommand.HashList
