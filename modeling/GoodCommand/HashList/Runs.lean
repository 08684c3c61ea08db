import GoodCommand.HashList.Contents

/-! Runs of the functions for lists with a single pointer list head, in any order. -/

namespace GoodCommand.HashList

variable {H N : Type} [DecidableEq H] [DecidableEq N]

inductive Op (H N : Type) where
  | initHead (ptr : H)
  | initNode (n : N)
  | del (n : N)
  | delInit (n : N)
  | addHead (n : N) (hd : H)
  | addBefore (n next : N)
  | addBehind (n prev : N)
  | addFake (n : N)
  | moveList (old new : H)

def Op.run (c : Constants H N) (h : Heap H N) : Op H N → Except (WildPointer H N) (Heap H N)
  | initHead ptr => initHlistHead h ptr
  | initNode n => initHlistNode h n
  | del n => hlistDel c h n
  | delInit n => hlistDelInit h n
  | addHead n hd => hlistAddHead h n hd
  | addBefore n next => hlistAddBefore h n next
  | addBehind n prev => hlistAddBehind h n prev
  | addFake n => hlistAddFake h n
  | moveList old new => hlistMoveList h old new

def run (c : Constants H N) (h : Heap H N) (ops : List (Op H N)) :
    Except (WildPointer H N) (Heap H N) :=
  ops.foldlM (Op.run c) h

/-- The calls as they are meant, with what they make of the table. A node that is added is on no
list. -/
inductive Step (S : Finset (Slot H N)) (t : Table H N) : Op H N → Table H N → Prop where
  | initHead {hd : H} (hhd : .first hd ∈ S) (hnew : t.lists hd = none) :
      Step S t (.initHead hd) (t.set hd [])
  | initHeadAgain {hd : H} (hhd : t.lists hd = some []) : Step S t (.initHead hd) t
  | initNode {n : N} (hn : .next n ∈ S) (hfree : ¬t.Listed n) :
      Step S t (.initNode n) (t.loosen n .idle)
  | del {n : N} {hd : H} {as bs : List N} (hhd : t.lists hd = some (as ++ n :: bs)) :
      Step S t (.del n) (t.set hd (as ++ bs))
  | delFake {n : N} (hn : t.loose n = some .fake) : Step S t (.del n) (t.forget n)
  | delInit {n : N} {hd : H} {as bs : List N} (hhd : t.lists hd = some (as ++ n :: bs)) :
      Step S t (.delInit n) ((t.set hd (as ++ bs)).loosen n .idle)
  | delInitLoose {n : N} {l : Loose} (hn : t.loose n = some l) :
      Step S t (.delInit n) (t.loosen n .idle)
  | addHead {n : N} {hd : H} {xs : List N} (hn : .next n ∈ S) (hfree : ¬t.Listed n)
      (hhd : t.lists hd = some xs) : Step S t (.addHead n hd) ((t.forget n).set hd (n :: xs))
  | addBefore {n next : N} {hd : H} {as bs : List N} (hn : .next n ∈ S) (hfree : ¬t.Listed n)
      (hhd : t.lists hd = some (as ++ next :: bs)) :
      Step S t (.addBefore n next) ((t.forget n).set hd (as ++ n :: next :: bs))
  | addBehind {n prev : N} {hd : H} {as bs : List N} (hn : .next n ∈ S) (hfree : ¬t.Listed n)
      (hhd : t.lists hd = some (as ++ prev :: bs)) :
      Step S t (.addBehind n prev) ((t.forget n).set hd (as ++ prev :: n :: bs))
  | addFake {n : N} {l : Loose} (hn : t.loose n = some l) :
      Step S t (.addFake n) (t.loosen n .fake)
  | moveList {old new : H} {xs : List N} (hne : old ≠ new) (hold : t.lists old = some xs)
      (hmem : .first new ∈ S) (hnew : t.lists new = none ∨ t.lists new = some []) :
      Step S t (.moveList old new) ((t.set new xs).set old [])

inductive Steps (S : Finset (Slot H N)) : Table H N → List (Op H N) → Table H N → Prop where
  | nil (t : Table H N) : Steps S t [] t
  | cons {t t' t'' : Table H N} {op : Op H N} {ops : List (Op H N)} (hstep : Step S t op t')
      (hsteps : Steps S t' ops t'') : Steps S t (op :: ops) t''

variable {S : Finset (Slot H N)} {h h' : Heap H N} {t t' : Table H N} {r r' : Rings (Slot H N)}
variable {c : Constants H N} {op : Op H N} {ops ops' : List (Op H N)} {n : N} {hd : H}
variable {xs : List N}

/-- The slot that a call links, or unlinks. -/
def Op.slot : Op H N → Slot H N
  | initHead ptr => .first ptr
  | initNode n => .next n
  | del n => .next n
  | delInit n => .next n
  | addHead n _ => .next n
  | addBefore n _ => .next n
  | addBehind n _ => .next n
  | addFake n => .next n
  | moveList _ new => .first new

theorem Step.models (c : Constants H N) (hstep : Step S t op t') (hm : h.Models S t r) :
    LeadsTo S (insert op.slot r.linked) h (op.run c h) t' := by
  have hsub : {op.slot} ⊆ insert op.slot r.linked :=
    Finset.singleton_subset_iff.mpr (Finset.mem_insert_self ..)
  cases hstep with
  | initHead hhd hnew => exact hm.initHlistHead hhd hnew
  | initHeadAgain hhd => exact (hm.initHlistHead_again hhd).mono hsub
  | initNode hn hfree => exact (hm.initHlistNode hn hfree).mono hsub
  | del hhd => exact hm.hlistDel c hhd
  | delFake hn => exact (hm.hlistDel_fake c hn).mono hsub
  | delInit hhd => exact hm.hlistDelInit hhd
  | delInitLoose hn => exact (hm.hlistDelInit_loose hn).mono hsub
  | addHead hn hfree hhd => exact hm.hlistAddHead hn hfree hhd
  | addBefore hn hfree hhd => exact hm.hlistAddBefore hn hfree hhd
  | addBehind hn hfree hhd => exact hm.hlistAddBehind hn hfree hhd
  | addFake hn => exact (hm.hlistAddFake hn).mono hsub
  | moveList hne hold hmem hnew => exact hm.hlistMoveList hne hold hmem hnew

/-! ### Zeroed memory -/

/-- Empty lists and initialised nodes. -/
def Table.zeroed (S : Finset (Slot H N)) : Table H N where
  lists hd := if .first hd ∈ S then some [] else none
  loose n := if .next n ∈ S then some .idle else none

theorem Table.zeroed_slots {b : Slot H N} {ys : List (Slot H N)}
    (hb : (zeroed S).slots b = some ys) : (∃ hd, b = .first hd) ∧ b ∈ S ∧ ys = [] := by
  cases b with
  | next n => cases hb
  | first hd =>
    obtain ⟨xs, hxs, rfl⟩ := Option.map_eq_some_iff.mp hb
    change (if .first hd ∈ S then some [] else none) = some xs at hxs
    split_ifs at hxs with hmem
    cases hxs
    exact ⟨⟨hd, rfl⟩, hmem, rfl⟩

theorem Table.zeroed_lists (hhd : .first hd ∈ S) : (zeroed S).lists hd = some [] := if_pos hhd

theorem Table.zeroed_loose (hn : .next n ∈ S) : (zeroed S).loose n = some .idle := if_pos hn

theorem Table.zeroed_unlisted : ¬(zeroed S).Listed n := by
  rw [← has_next]
  rintro ⟨b, ys, hb, hmem⟩
  obtain ⟨⟨hd, rfl⟩, -, rfl⟩ := zeroed_slots hb
  simp at hmem

theorem represents_zeroed (hmapped : ∀ s ∈ S, h.mapped s) (htarget : ∀ s ∈ S, h.target s = none)
    (hpprev : ∀ n, .next n ∈ S → h.pprev n = none) : h.Represents S (Table.zeroed S) := by
  have hloose : ∀ {n l}, (Table.zeroed S).loose n = some l → .next n ∈ S ∧ l = .idle := by
    intro n l hn
    change (if .next n ∈ S then some Loose.idle else none) = some l at hn
    split_ifs at hn with hmem
    cases hn
    exact ⟨hmem, rfl⟩
  -- the heads alone are linked, each to itself
  refine ⟨⟨S.filter fun s => s.node = none, 1, fun _ _ => rfl⟩,
    ⟨hmapped, Finset.filter_subset _ _, fun s hs => ?_, fun s hs n hn => ?_⟩,
    ⟨fun b ys hb => ?_, fun b ys hb => ?_, fun b ys a zs hb _ => ?_, fun _ _ => rfl⟩,
    fun s hs => ?_, fun n l _ => Table.zeroed_unlisted, fun n l hn => ?_⟩
  · obtain ⟨hmem, hnode⟩ := Finset.mem_filter.mp hs
    exact (htarget s hmem).trans hnode.symm
  · obtain ⟨-, hnode⟩ := Finset.mem_filter.mp hs
    rw [show s = .next n from hn] at hnode
    cases hnode
  · obtain ⟨⟨hd, rfl⟩, hmem, -⟩ := Table.zeroed_slots hb
    exact Finset.mem_filter.mpr ⟨hmem, rfl⟩
  · obtain ⟨-, -, rfl⟩ := Table.zeroed_slots hb
    exact ringAt_nil_iff.mpr rfl
  · obtain ⟨-, -, rfl⟩ := Table.zeroed_slots hb
    exact List.not_mem_nil
  · obtain ⟨hmem, hnode⟩ := Finset.mem_filter.mp hs
    cases s with
    | next n => cases hnode
    | first hd => exact ⟨.first hd, [], by simp [Table.slots, Table.zeroed, hmem], by simp⟩
  · obtain ⟨hmem, rfl⟩ := hloose hn
    exact ⟨hmem, htarget _ hmem, hpprev n hmem⟩

/-! ### Runs -/

omit [DecidableEq H] [DecidableEq N] in
theorem Heap.Represents.isList (hrep : h.Represents S t) (hhd : t.lists hd = some xs) :
    h.IsList (.first hd) xs := by
  obtain ⟨r, hm⟩ := hrep
  exact hm.isList hhd

theorem Step.slot_mem (hstep : Step S t op t') (hm : h.Models S t r) : op.slot ∈ S := by
  have hlisted : ∀ {hd as bs n}, t.lists hd = some (as ++ n :: bs) → Slot.next n ∈ S := fun hhd =>
    hm.wired.within (hm.node_linked hhd (List.mem_append_right _ List.mem_cons_self))
  cases hstep with
  | initHead hhd hnew => exact hhd
  | initHeadAgain hhd => exact hm.wired.within (hm.head_linked hhd)
  | initNode hn hfree => exact hn
  | del hhd => exact hlisted hhd
  | delFake hn => exact (hm.loose _ _ hn).1
  | delInit hhd => exact hlisted hhd
  | delInitLoose hn => exact (hm.loose _ _ hn).1
  | addHead hn hfree hhd => exact hn
  | addBefore hn hfree hhd => exact hn
  | addBehind hn hfree hhd => exact hn
  | addFake hn => exact (hm.loose _ _ hn).1
  | moveList hne hold hmem hnew => exact hmem

theorem Step.represents (c : Constants H N) (hstep : Step S t op t') (hrep : h.Represents S t) :
    ∃ h', op.run c h = .ok h' ∧ h.Within S h' ∧ h'.Represents S t' := by
  obtain ⟨r, hm⟩ := hrep
  obtain ⟨h', r', hrun, hin, hm'⟩ := hstep.models c hm
  have hsub := Finset.insert_subset (hstep.slot_mem hm) hm.wired.within
  exact ⟨h', hrun, hin.mono hsub, r', hm'⟩

/-- Calls that are meant do to the pointers what they are meant to do to the table, however many of
them there are, and in whatever order. -/
theorem run_table (hsteps : Steps S t ops t') (hrep : h.Represents S t) :
    ∃ h', run c h ops = .ok h' ∧ h.Within S h' ∧ h'.Represents S t' ∧
      ∀ hd xs, t'.lists hd = some xs → h'.IsList (.first hd) xs := by
  induction hsteps generalizing h with
  | nil t => exact ⟨h, rfl, .refl S h, hrep, fun _ _ hhd => hrep.isList hhd⟩
  | cons hstep _ ih =>
    obtain ⟨h₁, hrun, hin, hrep₁⟩ := hstep.represents c hrep
    obtain ⟨h', hruns, hins, hrest⟩ := ih hrep₁
    refine ⟨h', ?_, hin.trans hins, hrest⟩
    rw [run, List.foldlM_cons, hrun, ok_bind]
    exact hruns

theorem steps_moved {old new : H} (hne : old ≠ new) (hold : .first old ∈ S)
    (hnew : .first new ∈ S) (hn : .next n ∈ S) :
    Steps S (Table.zeroed S) [.addHead n old, .moveList old new]
      (((((Table.zeroed S).forget n).set old [n]).set new [n]).set old []) := by
  have hempty : (((Table.zeroed S).forget n).set old [n]).lists new = some [] :=
    (Function.update_of_ne hne.symm _ _).trans (Table.zeroed_lists hnew)
  exact .cons (.addHead hn Table.zeroed_unlisted (Table.zeroed_lists hold))
    (.cons (.moveList hne (Function.update_self ..) hnew (.inr hempty)) (.nil _))

theorem run_table_moved : ∃ h', run (⟨true, .first true⟩ : Constants Bool Bool)
      ⟨fun _ => true, fun _ => true, fun _ => none, fun _ => none, fun _ => none⟩
      [.addHead false false, .moveList false true] = .ok h' ∧
    Heap.Within {.first false, .first true, .next false}
      ⟨fun _ => true, fun _ => true, fun _ => none, fun _ => none, fun _ => none⟩ h' ∧
    h'.Represents {.first false, .first true, .next false}
      (((((Table.zeroed {.first false, .first true, .next false}).forget false).set false
        [false]).set true [false]).set false []) ∧
    ∀ hd xs, (((((Table.zeroed {.first false, .first true, .next false}).forget false).set false
        [false]).set true [false]).set false []).lists hd = some xs → h'.IsList (.first hd) xs :=
  run_table (steps_moved (by decide) (by decide) (by decide) (by decide))
    (represents_zeroed (by decide) (by decide) (by decide))

/-! ### Undone runs -/

namespace Table

/-- The slot is on a list, or its node is loose. -/
def Known (t : Table H N) (s : Slot H N) : Prop :=
  t.slots.Has s ∨ ∃ n l, s = .next n ∧ t.loose n = some l

end Table

theorem Table.zeroed_known {s : Slot H N} (hs : s ∈ S) : (zeroed S).Known s := by
  cases s with
  | first hd => exact .inl ⟨.first hd, [], by simp [slots, zeroed, hs], List.mem_cons_self⟩
  | next n => exact .inr ⟨n, .idle, rfl, if_pos hs⟩

/-- The members at the slots that are known are determined by the table. -/
theorem Heap.Represents.unique (hin : h.Within S h') (hall : ∀ s ∈ S, t.Known s)
    (hrep : h.Represents S t) (hrep' : h'.Represents S t) : h' = h := by
  obtain ⟨r, hm⟩ := hrep
  obtain ⟨r', hm'⟩ := hrep'
  have hnext : r'.next = r.next := hm'.holds.next_eq hm.holds
  have hlinked : ∀ s, t.slots.Has s → s ∈ r.linked ∧ s ∈ r'.linked := fun s ⟨_, _, hb, hs⟩ =>
    ⟨hm.holds.entry_linked hb hs, hm'.holds.entry_linked hb hs⟩
  apply Heap.eq_of_members hin.mapped
  · funext s
    by_cases hs : s ∈ S
    · rcases hall s hs with hhas | ⟨n, l, rfl, hn⟩
      · obtain ⟨hmem, hmem'⟩ := hlinked s hhas
        rw [hm'.wired.linked.target s hmem', hm.wired.linked.target s hmem, hnext]
      · exact (hm'.loose n l hn).2.1.trans (hm.loose n l hn).2.1.symm
    · exact hin.target s hs
  · funext n
    by_cases hn : .next n ∈ S
    · rcases hall _ hn with hhas | ⟨m, l, heq, hm''⟩
      · obtain ⟨hmem, hmem'⟩ := hlinked _ hhas
        rw [hm'.wired.pprev hmem', hm.wired.pprev hmem, hnext]
      · obtain rfl := Slot.next.inj heq
        exact (hm'.loose n l hm'').2.2.trans (hm.loose n l hm'').2.2.symm
    · exact hin.pprev n hn

/-- A node that is added has been initialised, and a list is moved to an empty one. -/
def Op.Undoable (t : Table H N) : Op H N → Prop
  | addHead n _ => t.loose n = some .idle
  | addBefore n _ => t.loose n = some .idle
  | addBehind n _ => t.loose n = some .idle
  | addFake n => t.loose n = some .idle
  | moveList _ new => t.lists new = some []
  | _ => False

def Op.undo : Op H N → Op H N
  | addHead n _ => delInit n
  | addBefore n _ => delInit n
  | addBehind n _ => delInit n
  | addFake n => delInit n
  | moveList old new => moveList new old
  | op => op

theorem Step.undo_add {as bs : List N} (hhd : t.lists hd = some (as ++ bs))
    (hn : t.loose n = some .idle) :
    Step S ((t.forget n).set hd (as ++ n :: bs)) (.delInit n) t := by
  have hlists : Function.update (Function.update t.lists hd (some (as ++ n :: bs))) hd
      (some (as ++ bs)) = t.lists := by
    rw [Function.update_idem, ← hhd, Function.update_eq_self]
  have hloose : Function.update (Function.update t.loose n none) n (some .idle) = t.loose := by
    rw [Function.update_idem, ← hn, Function.update_eq_self]
  have hback : (((t.forget n).set hd (as ++ n :: bs)).set hd (as ++ bs)).loosen n .idle = t :=
    Table.ext hlists hloose
  have hdel : ((t.forget n).set hd (as ++ n :: bs)).lists hd = some (as ++ n :: bs) :=
    Function.update_self ..
  have hstep := Step.delInit (S := S) hdel
  rwa [hback] at hstep

theorem Step.undo (hstep : Step S t op t') (hop : op.Undoable t) (hm : h.Models S t r) :
    Step S t' op.undo t := by
  cases hstep with
  | @addHead n hd xs hn hfree hhd =>
    exact .undo_add (show t.lists hd = some ([] ++ xs) from hhd) hop
  | addBefore hn hfree hhd => exact .undo_add hhd hop
  | @addBehind n prev hd as bs hn hfree hhd =>
    rw [List.append_cons] at hhd ⊢
    exact .undo_add hhd hop
  | @addFake n l hn =>
    have hloose : Function.update (Function.update t.loose n (some .fake)) n (some .idle) =
        t.loose := by
      rw [Function.update_idem, ← show t.loose n = some .idle from hop, Function.update_eq_self]
    have hback : (t.loosen n .fake).loosen n .idle = t := Table.ext rfl hloose
    have hfake : (t.loosen n .fake).loose n = some .fake := Function.update_self ..
    have hstep := Step.delInitLoose (S := S) hfake
    rwa [hback] at hstep
  | @moveList old new xs hne hold hmem hnew =>
    have hlists : ((((t.set new xs).set old []).set old xs).set new []).lists = t.lists := by
      funext hd
      by_cases hold' : hd = old
      · subst hold'
        simp [Table.set, hne, hold]
      · by_cases hnew' : hd = new
        · subst hnew'
          simpa [Table.set] using hop.symm
        · simp [Table.set, hold', hnew']
    have hback : (((t.set new xs).set old []).set old xs).set new [] = t := Table.ext hlists rfl
    have hxs : ((t.set new xs).set old []).lists new = some xs := by simp [Table.set, hne.symm]
    have hempty : ((t.set new xs).set old []).lists old = some [] := Function.update_self ..
    have hstep := Step.moveList (S := S) hne.symm hxs
      (hm.wired.within (hm.head_linked hold)) (.inr hempty)
    rwa [hback] at hstep
  | _ => exact hop.elim

theorem Steps.append {t'' : Table H N} (hsteps : Steps S t ops t') (hrest : Steps S t' ops' t'') :
    Steps S t (ops ++ ops') t'' := by
  induction hsteps with
  | nil t => exact hrest
  | cons hstep _ ih => exact .cons hstep (ih hrest)

/-- Each call of the run can be undone where it is made. -/
inductive UndoableSteps (S : Finset (Slot H N)) : Table H N → List (Op H N) → Table H N → Prop where
  | nil (t : Table H N) : UndoableSteps S t [] t
  | cons {t t' t'' : Table H N} {op : Op H N} {ops : List (Op H N)} (hstep : Step S t op t')
      (hop : op.Undoable t) (hsteps : UndoableSteps S t' ops t'') :
      UndoableSteps S t (op :: ops) t''

theorem UndoableSteps.steps (hsteps : UndoableSteps S t ops t') : Steps S t ops t' := by
  induction hsteps with
  | nil t => exact .nil t
  | cons hstep _ _ ih => exact .cons hstep ih

theorem UndoableSteps.undo (c : Constants H N) (hsteps : UndoableSteps S t ops t')
    (hrep : h.Represents S t) : Steps S t' (ops.map Op.undo).reverse t := by
  induction hsteps generalizing h with
  | nil t => exact .nil t
  | cons hstep hop _ ih =>
    obtain ⟨r, hm⟩ := hrep
    obtain ⟨h', r', -, -, hm'⟩ := hstep.models c hm
    rw [List.map_cons, List.reverse_cons]
    exact (ih ⟨r', hm'⟩).append (.cons (hstep.undo hop hm) (.nil _))

/-- Calls that are undone, the last one first, leave the heap as it was. -/
theorem run_undo (hsteps : UndoableSteps S t ops t') (hrep : h.Represents S t)
    (hall : ∀ s ∈ S, t.Known s) : run c h (ops ++ (ops.map Op.undo).reverse) = .ok h := by
  obtain ⟨h', hrun, hin, hrep', -⟩ :=
    run_table (c := c) (hsteps.steps.append (hsteps.undo c hrep)) hrep
  rwa [hrep.unique hin hall hrep'] at hrun

theorem run_undo_added : run (⟨true, .first true⟩ : Constants Bool Bool)
      ⟨fun _ => true, fun _ => true, fun _ => none, fun _ => none, fun _ => none⟩
      ([.addHead false false] ++ ([.addHead false false].map Op.undo).reverse) =
    .ok ⟨fun _ => true, fun _ => true, fun _ => none, fun _ => none, fun _ => none⟩ := by
  have hadd : Step {.first false, .next false} (Table.zeroed {.first false, .next false})
      (.addHead false false) _ :=
    .addHead (by decide) Table.zeroed_unlisted (Table.zeroed_lists (by decide))
  exact run_undo (.cons hadd (Table.zeroed_loose (by decide)) (.nil _))
    (represents_zeroed (by decide) (by decide) (by decide)) fun _ => Table.zeroed_known

/-! ### Tests -/

omit [DecidableEq H] [DecidableEq N] in
theorem Heap.Models.place (hm : h.Models S t r) (hhd : t.lists hd = some xs) (hn : n ∈ xs) :
    h.pprev n ≠ some (.next n) ∧ ∀ hd' ys, t.lists hd' = some ys →
      (h.next n = none ∧ h.pprev n = some (.first hd') ↔ ys = [n]) := by
  have hlinked := hm.node_linked hhd hn
  have hpprev := hm.wired.pprev hlinked
  have htarget : h.next n = (r.next (.next n)).node := hm.wired.linked.target _ hlinked
  have hring := hm.ring hhd
  refine ⟨fun hself => ?_, fun hd' ys hhd' => ⟨fun ⟨hnext, hfirst⟩ => ?_, ?_⟩⟩
  · -- a cell that points to itself is alone in its ring, and no node of a list is
    rw [hpprev, Option.some.injEq, Equiv.Perm.inv_eq_iff_eq] at hself
    have halone := hring.eq_nil (List.mem_cons_of_mem _ (List.mem_map_of_mem hn)) hself.symm
    cases halone.1
  · have hring' := hm.ring hhd'
    rw [hpprev, Option.some.injEq, Equiv.Perm.inv_eq_iff_eq] at hfirst
    rcases ys with _ | ⟨y, _ | ⟨z, zs⟩⟩
    · rw [ringAt_nil_iff.mp hring'] at hfirst
      cases hfirst
    · rw [List.map_singleton] at hring'
      rw [Slot.next.inj (hfirst.trans hring'.apply_head)]
    · -- behind the first node there is another one, which `next` would point to
      rw [List.map_cons, List.map_cons] at hring'
      have hy := Slot.next.inj (hfirst.trans hring'.apply_head)
      have hz : r.next (.next y) = .next z :=
        (List.isChain_cons_cons.mp (List.isChain_cons_cons.mp hring'.chain).2).1
      rw [htarget, hy, hz] at hnext
      cases hnext
  · rintro rfl
    have hring' := hm.ring hhd'
    rw [List.map_singleton] at hring'
    have hlast : r.next (.next n) = .first hd' :=
      (List.isChain_cons_cons.mp (List.isChain_cons_cons.mp hring'.chain).2).1
    rw [htarget, hlast, hpprev, Option.some.injEq, Equiv.Perm.inv_eq_iff_eq, hring'.apply_head]
    exact ⟨rfl, rfl⟩

theorem hlistIsSingularNode_ok {b : Prop} [Decidable b] (hn : h.mapped (.next n))
    (hb : h.next n = none ∧ h.pprev n = some (.first hd) ↔ b) :
    hlistIsSingularNode h n hd = .ok (decide b) := by
  rw [hlistIsSingularNode, getTarget_ok hn, ok_bind, show h.target (.next n) = h.next n from rfl,
    getPprev_ok hn]
  by_cases hnext : h.next n = none
  · rw [if_pos hnext]
    exact congrArg Except.ok (decide_eq_decide.mpr (by rw [← hb, and_iff_right hnext]))
  · rw [if_neg hnext]
    exact congrArg Except.ok (decide_eq_false fun h => hnext (hb.mpr h).1).symm

/-- The tests tell a loose node from one on a list, and of a list whether it is empty and whether
`n` is its only node. -/
theorem node_tests_agree (hrep : h.Represents S t) (hn : t.Listed n ∨ t.loose n ≠ none) :
    hlistUnhashed h n = .ok (t.loose n = some .idle) ∧
      hlistFake h n = .ok (t.loose n = some .fake) ∧
      ∀ hd xs, t.lists hd = some xs → hlistEmpty h hd = .ok (xs = []) ∧
        hlistIsSingularNode h n hd = .ok (xs = [n]) := by
  obtain ⟨r, hm⟩ := hrep
  have hempty : ∀ hd xs, t.lists hd = some xs → hlistEmpty h hd = .ok (xs = []) := by
    intro hd xs hhd
    have hlinked := hm.head_linked hhd
    rw [hlistEmpty, getTarget_ok (hm.wired.mapped _ (hm.wired.within hlinked)),
      hm.wired.linked.target _ hlinked]
    refine congrArg Except.ok (decide_eq_decide.mpr ?_)
    have hring := hm.ring hhd
    cases xs with
    | nil => simp [ringAt_nil_iff.mp hring, Slot.node]
    | cons x xs => simp [hring.apply_head, Slot.node]
  rcases hn with ⟨hd₀, ys, hhd₀, hmem⟩ | hloose
  · have hlinked := hm.node_linked hhd₀ hmem
    have hmapped := hm.wired.mapped _ (hm.wired.within hlinked)
    have hnone := hm.loose_eq_none ⟨hd₀, ys, hhd₀, hmem⟩
    obtain ⟨hself, hplace⟩ := hm.place hhd₀ hmem
    refine ⟨?_, ?_, fun hd xs hhd => ⟨hempty hd xs hhd, ?_⟩⟩
    · rw [hlistUnhashed, getPprev_ok hmapped, hm.wired.pprev hlinked, hnone]
      rfl
    · rw [hlistFake, getPprev_ok hmapped, hnone]
      exact congrArg Except.ok (decide_eq_decide.mpr (iff_of_false hself (by simp)))
    · exact hlistIsSingularNode_ok hmapped (hplace hd xs hhd)
  · obtain ⟨l, hl⟩ := Option.ne_none_iff_exists'.mp hloose
    obtain ⟨hmem, hnext, hpprev⟩ := hm.loose n l hl
    have hmapped := hm.wired.mapped _ hmem
    have hfree := hm.unlisted n l hl
    refine ⟨?_, ?_, fun hd xs hhd => ⟨hempty hd xs hhd, ?_⟩⟩
    · rw [hlistUnhashed, getPprev_ok hmapped, hpprev, hl]
      cases l <;> rfl
    · rw [hlistFake, getPprev_ok hmapped, hpprev, hl]
      cases l <;> simp [Loose.pprev]
    · refine hlistIsSingularNode_ok hmapped (iff_of_false ?_ ?_)
      · rw [hpprev]
        cases l <;> simp [Loose.pprev]
      · rintro rfl
        exact hfree ⟨hd, _, hhd, List.mem_singleton_self n⟩

theorem node_tests_agree_idle :
    hlistUnhashed (⟨fun _ => true, fun _ => true, fun _ => none, fun _ => none, fun _ => none⟩ :
      Heap Bool Bool) false = .ok true ∧
    hlistFake (⟨fun _ => true, fun _ => true, fun _ => none, fun _ => none, fun _ => none⟩ :
      Heap Bool Bool) false = .ok false := by
  have hrep : Heap.Represents {.first false, .next false}
      (⟨fun _ => true, fun _ => true, fun _ => none, fun _ => none, fun _ => none⟩ :
        Heap Bool Bool) (Table.zeroed {.first false, .next false}) :=
    represents_zeroed (by decide) (by decide) (by decide)
  have htests := node_tests_agree hrep (show _ ∨ _ from .inr (show (Table.zeroed
    {.first false, .next false} : Table Bool Bool).loose false ≠ none by decide))
  exact ⟨htests.1, htests.2.1⟩

end GoodCommand.HashList
