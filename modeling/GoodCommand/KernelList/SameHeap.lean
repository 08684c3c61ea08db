import GoodCommand.KernelList.Contents

/-! Runs with the same effect on the lists leave the same heap, pointer for pointer, as long as they
leave no cell uninitialised. -/

namespace GoodCommand.KernelList
open GoodCommand.Lists (set_comm set_self set_of_ne set_set set_eq_self)

variable {A : Type} [DecidableEq A] {c : Constants A} {S : Finset A} {h h' : Heap A}
variable {T T' T'' : Lists A} {r : Rings A} {op : Op A} {ops ops' : List (Op A)}

/-- The call leaves its cells on rings: it neither poisons a cell nor leaves a stale one behind. -/
def Op.Initialises : Op A → Prop
  | .delClearprev _ | .del _ | .replace _ _ | .splice _ _ | .spliceTail _ _ => False
  | _ => True

theorem Op.linked_subset (hlegal : op.Legal S r) (hinit : op.Initialises) :
    r.linked ⊆ (op.apply r).linked := by
  intro x hx
  cases op with
  | init | add | addTail | delInit | bulkMoveTail | replaceInit | move | moveTail | rotateToFront =>
    simp only [Op.apply, bulkMoved, Rings.enter_linked, Rings.exchange_linked, Rings.isolate_linked,
      Rings.leave_linked, Finset.mem_insert, Finset.mem_erase]
    tauto
  | swap => exact (swapped_linked r hlegal.1 hlegal.2.1).ge hx
  | rotateLeft =>
    rw [Op.apply, rotatedLeft]
    split_ifs
    · exact hx
    · simp only [Rings.exchange_linked, Rings.leave_linked, Finset.mem_insert, Finset.mem_erase]
      tauto
  | cutPosition =>
    rw [Op.apply, KernelList.cutPosition]
    split_ifs <;> simp [cutAt, hx]
  | cutBefore =>
    rw [Op.apply, KernelList.cutBefore]
    split_ifs <;> simp [cutAt, hx]
  | spliceInit | spliceTailInit =>
    rw [Op.apply, splicedInitAt]
    split_ifs <;> simp [hx]
  -- the other calls leave a cell behind that is on no ring
  | _ => exact hinit.elim

/-- On the heap there are the lists `T`, and every cell of `S` is on a ring. -/
def Heap.Full (S : Finset A) (h : Heap A) (T : Lists A) : Prop :=
  ∃ r, h.Wired S r ∧ T.Holds r ∧ r.linked = S

omit [DecidableEq A] in
theorem Heap.Full.represents (hfull : h.Full S T) : h.Represents S T := by
  obtain ⟨r, hw, hT, -⟩ := hfull
  exact ⟨r, hw, hT⟩

omit [DecidableEq A] in
theorem Heap.Full.unique {h₀ : Heap A} (hfull : h.Full S T) (hfull' : h'.Full S T)
    (hin : h₀.Within S h) (hin' : h₀.Within S h') : h = h' := by
  obtain ⟨r, hw, hT, hS⟩ := hfull
  obtain ⟨r', hw', hT', hS'⟩ := hfull'
  obtain rfl : r = r' := Rings.ext (hS.trans hS'.symm) (hT.next_eq hT')
  exact hw.unique (hS ▸ hin) (hS ▸ hin') hw'

theorem run_full (hsteps : Steps S T ops T') (hinit : ∀ op ∈ ops, op.Initialises)
    (hfull : h.Full S T) : ∃ h', run c h ops = .ok h' ∧ h.Within S h' ∧ h'.Full S T' := by
  induction hsteps generalizing h with
  | nil T => exact ⟨h, rfl, .refl S h, hfull⟩
  | cons hstep _ ih =>
    obtain ⟨r, hw, hT, hS⟩ := hfull
    obtain ⟨hlegal, hT₁⟩ := hstep.refines hT hw.within
    obtain ⟨h₁, hrun, hin, hw₁⟩ := Op.run_leads (c := c) hw hlegal
    have hlinked := Op.linked_subset hlegal (hinit _ List.mem_cons_self)
    obtain ⟨h', hruns, hins, hfull'⟩ := ih (fun op hop => hinit op (List.mem_cons_of_mem _ hop))
      ⟨_, hw₁, hT₁, hw₁.within.antisymm (hS ▸ hlinked)⟩
    refine ⟨h', ?_, hin.trans hins, hfull'⟩
    rw [run, List.foldlM_cons, hrun, ok_bind]
    exact hruns

/-- What a run does to the heap is determined by what it does to the lists. -/
theorem run_eq_run (hfull : h.Full S T) (hsteps : Steps S T ops T') (hsteps' : Steps S T ops' T')
    (hinit : ∀ op ∈ ops, op.Initialises) (hinit' : ∀ op ∈ ops', op.Initialises) :
    ∃ h', run c h ops = .ok h' ∧ run c h ops' = .ok h' := by
  obtain ⟨h₁, hrun, hin, hfull₁⟩ := run_full (c := c) hsteps hinit hfull
  obtain ⟨h₂, hrun', hin', hfull₂⟩ := run_full (c := c) hsteps' hinit' hfull
  obtain rfl := hfull₁.unique hfull₂ hin hin'
  exact ⟨h₁, hrun, hrun'⟩

/-! Cells with the list of the entries `1` and `2` under `0`, and `3`, which is alone. -/

def ofTwo : Heap ℕ where
  mapped a := a < 4
  next a := if a = 0 then 1 else if a = 1 then 2 else if a = 2 then 0 else a
  prev a := if a = 0 then 2 else if a = 1 then 0 else if a = 2 then 1 else a

def oneTwo : Lists ℕ := Lists.nil.set 0 [1, 2]

theorem oneTwo_head : oneTwo 0 = some [1, 2] := rfl

theorem ofTwo_full : ofTwo.Full {0, 1, 2, 3} oneTwo := by
  have hT := (Lists.Holds.unlinked.enter (a := 0) (by simp [Lists.Has, Lists.nil])).enter_again 3
  have hT₂ := hT.insertFirst (show ¬Lists.Has _ 2 by simp [Lists.has_nil_set]) (set_self ..)
  rw [set_set] at hT₂
  have hT₁ := hT₂.insertFirst (show ¬Lists.Has _ 1 by simp [Lists.has_nil_set]) (set_self ..)
  rw [set_set] at hT₁
  exact ⟨(((Rings.unlinked.enter 0).enter 3).exchange 0 2).exchange 0 1,
    ⟨by decide, by decide, ⟨by decide, by decide⟩⟩, hT₁, by decide⟩

theorem run_eq_run_of_two : ∃ h', run ⟨90, 91, 92⟩ ofTwo [.rotateLeft 0] = .ok h' ∧
    run ⟨90, 91, 92⟩ ofTwo [.swap 1 2] = .ok h' :=
  run_eq_run ofTwo_full (.cons (.rotateLeft (set_self ..)) (.nil _)) (.cons (by
    have hset : (fun head => (oneTwo head).map (List.map (Equiv.swap 1 2))) =
        oneTwo.set 0 ([1, 2].rotate 1) := by
      funext head
      by_cases heq : head = 0 <;> simp [oneTwo, Lists.set, Lists.nil, heq]
    rw [← hset]
    exact .swap (by decide) oneTwo_head (by decide) oneTwo_head (by decide)) (.nil _))
    (by simp [Op.Initialises]) (by simp [Op.Initialises])

theorem run_eq_self (hfull : h.Full S T) (hsteps : Steps S T ops T)
    (hinit : ∀ op ∈ ops, op.Initialises) : run c h ops = .ok h := by
  obtain ⟨h', hrun, hself⟩ := run_eq_run (c := c) hfull hsteps (.nil T) hinit
    fun op hop => absurd hop List.not_mem_nil
  obtain rfl := Except.ok.inj hself
  exact hrun

/-! ### Entry by entry -/

section Moves

variable {head list : A} {as bs cs xs ys : List A}

theorem run_map (f : A → Op A) (bs : List A) (h : Heap A) :
    run c h (bs.map f) = bs.foldlM (fun h e => (f e).run c h) h := List.foldlM_map ..

theorem steps_moveTail (hhead : T head = some (as ++ (bs ++ cs))) :
    Steps S T (bs.map (.moveTail · head)) (T.set head (as ++ cs ++ bs)) := by
  induction bs generalizing T cs with
  | nil =>
    rw [List.nil_append] at hhead
    rw [List.append_nil, set_eq_self hhead]
    exact .nil T
  | cons b bs ih =>
    have hstep : Step S T (.moveTail b head) _ :=
      .moveTail (show T head = some (as ++ b :: (bs ++ cs)) from hhead) (set_self ..)
    rw [set_set] at hstep
    refine .cons hstep ?_
    have hrest := ih (show T.set head (as ++ (bs ++ cs) ++ [b]) head =
      some (as ++ (bs ++ (cs ++ [b]))) by rw [set_self]; simp only [List.append_assoc])
    rw [set_set] at hrest
    simpa only [List.append_assoc, List.singleton_append] using hrest

/-- `list_bulk_move_tail` moves the entries from `first` to `last` as `list_move_tail` would, one
after the other. -/
theorem listBulkMoveTail_eq_moves {first last : A} (hfull : h.Full S T)
    (hhead : T head = some (as ++ (bs ++ cs))) (hfirst : bs.head? = some first)
    (hlast : bs.getLast? = some last) :
    ∃ h', listBulkMoveTail h head first last = .ok h' ∧
      bs.foldlM (fun h e => listMoveTail h e head) h = .ok h' := by
  obtain ⟨h', hbulk, hmoves⟩ := run_eq_run (c := ⟨head, head, head⟩) hfull
    (.cons (.bulkMoveTail hhead hfirst hlast) (.nil _)) (steps_moveTail hhead)
    (by simp [Op.Initialises]) (by simp [Op.Initialises])
  rw [run_map] at hmoves
  refine ⟨h', ?_, hmoves⟩
  simpa [run, Op.run] using hbulk

theorem listBulkMoveTail_eq_moves_one : ∃ h', listBulkMoveTail ofTwo 0 1 1 = .ok h' ∧
    [1].foldlM (fun h e => listMoveTail h e 0) ofTwo = .ok h' :=
  listBulkMoveTail_eq_moves ofTwo_full (show oneTwo 0 = some ([] ++ ([1] ++ [2])) from rfl) rfl rfl

end Moves

/-! ### Calls that are undone -/

section Undone

variable {head list entry : A} {xs : List A}

/-- `list_swap` undoes itself. -/
theorem listSwap_listSwap {entry1 entry2 head1 head2 : A} {xs ys : List A} (hfull : h.Full S T)
    (hne : entry1 ≠ entry2) (hhead1 : T head1 = some xs) (hentry1 : entry1 ∈ xs)
    (hhead2 : T head2 = some ys) (hentry2 : entry2 ∈ ys) :
    run c h [.swap entry1 entry2, .swap entry1 entry2] = .ok h := by
  have hback : ∀ head, Option.map (List.map (Equiv.swap entry1 entry2))
      (Option.map (List.map (Equiv.swap entry1 entry2)) (T head)) = T head := by
    intro head
    rw [Option.map_map, List.map_comp_map, ← Equiv.coe_trans, Equiv.swap_swap]
    simp
  have hsteps : Steps S T [.swap entry1 entry2, .swap entry1 entry2] T := by
    refine .cons (.swap hne hhead1 hentry1 hhead2 hentry2) (.cons ?_ (.nil _))
    have hstep : Step S (fun head => (T head).map (List.map (Equiv.swap entry1 entry2)))
        (.swap entry1 entry2) _ :=
      .swap hne (congrArg (Option.map _) hhead2)
        (List.mem_map.mpr ⟨_, hentry2, Equiv.swap_apply_right ..⟩)
        (congrArg (Option.map _) hhead1) (List.mem_map.mpr ⟨_, hentry1, Equiv.swap_apply_left ..⟩)
    rwa [funext hback] at hstep
  exact run_eq_self hfull hsteps (by simp [Op.Initialises])

theorem listSwap_listSwap_of_two : run ⟨90, 91, 92⟩ ofTwo [.swap 1 2, .swap 1 2] = .ok ofTwo :=
  listSwap_listSwap ofTwo_full (by decide) oneTwo_head (by decide) oneTwo_head (by decide)

theorem Heap.Full.track (hfull : h.Full S T) (hlist : Fresh S T list) :
    h.Full S (T.set list []) := by
  obtain ⟨r, hw, hT, hS⟩ := hfull
  have hT' := hT.enter hlist.2
  rw [r.enter_of_mem (hS ▸ hlist.1)] at hT'
  exact ⟨r, hw, hT', hS⟩

theorem Heap.Full.untrack (hfull : h.Full S (T.set list [])) (hlist : ¬T.Has list) :
    h.Full S T := by
  obtain ⟨r, hw, hT, hS⟩ := hfull
  have hnone : T list = none := by
    cases hlist' : T list with
    | none => rfl
    | some ys => exact absurd ⟨list, ys, hlist', List.mem_cons_self⟩ hlist
  have hT' := hT.dropEmpty (set_self ..)
  rw [Lists.drop_set hnone] at hT'
  exact ⟨r, hw, hT', hS⟩

theorem cut_full {cut : Op A} (hfull : h.Full S T) (hlist : Fresh S T list)
    (hhead : T head = some xs) (hentry : entry ∈ head :: xs)
    (hcut : cut = .cutPosition list head entry ∨ cut = .cutBefore list head entry) :
    ∃ as bs h₁, xs = as ++ bs ∧ run c h [cut] = .ok h₁ ∧ h.Within S h₁ ∧
      h₁.Full S ((T.set list as).set head bs) := by
  have hrun : ∀ {as bs}, xs = as ++ bs → Step S T cut ((T.set list as).set head bs) →
      ∃ as bs h₁, xs = as ++ bs ∧ run c h [cut] = .ok h₁ ∧ h.Within S h₁ ∧
        h₁.Full S ((T.set list as).set head bs) := by
    intro as bs hxs hstep
    obtain ⟨h₁, hrun, hin, hfull₁⟩ := run_full (c := c) (.cons hstep (.nil _))
      (by rcases hcut with rfl | rfl <;> simp [Op.Initialises]) hfull
    exact ⟨as, bs, h₁, hxs, hrun, hin, hfull₁⟩
  rcases hcut with rfl | rfl
  · by_cases hempty : xs = []
    · subst hempty
      obtain rfl := List.mem_singleton.mp hentry
      obtain ⟨h₁, hrun, hin, hfull₁⟩ := run_full (c := c)
        (.cons (.cutPositionEmpty hlist hhead) (.nil _)) (by simp [Op.Initialises]) hfull
      -- `list_cut_position` returns at once and leaves `list` as it was
      have hset : (T.set list []).set entry [] = T.set list [] :=
        set_eq_self ((set_of_ne fun heq => hlist.2 ⟨entry, [], hhead, by simp [heq]⟩).trans hhead)
      refine ⟨[], [], h₁, rfl, hrun, hin, ?_⟩
      rw [hset]
      exact hfull₁.track hlist
    · rcases List.mem_cons.mp hentry with rfl | hmem
      · have hxs : xs = [] ++ xs := rfl
        exact hrun hxs (.cutPosition hlist (hxs ▸ hhead) (hxs ▸ hempty))
      · obtain ⟨as, bs, rfl⟩ := List.append_of_mem hmem
        have hxs : as ++ entry :: bs = (as ++ [entry]) ++ bs := by simp
        have hstep := Step.cutPosition hlist (hxs ▸ hhead) (hxs ▸ hempty)
        rw [List.getLastD_concat] at hstep
        exact hrun hxs hstep
  · rcases List.mem_cons.mp hentry with rfl | hmem
    · have hxs : xs = xs ++ [] := (List.append_nil xs).symm
      have hstep := Step.cutBefore hlist (hxs ▸ hhead)
      exact hrun hxs hstep
    · obtain ⟨as, bs, rfl⟩ := List.append_of_mem hmem
      exact hrun rfl (Step.cutBefore hlist hhead)

/-- What has been cut off is put back by `list_splice_init`. -/
theorem listSpliceInit_cut {cut : Op A} (hfull : h.Full S T) (hlist : Fresh S T list)
    (hhead : T head = some xs) (hentry : entry ∈ head :: xs)
    (hcut : cut = .cutPosition list head entry ∨ cut = .cutBefore list head entry) :
    run c h [cut, .spliceInit list head] = .ok h := by
  have hne : list ≠ head := fun heq => hlist.2 ⟨head, xs, hhead, by simp [heq]⟩
  obtain ⟨as, bs, h₁, rfl, hrun, hin, hfull₁⟩ := cut_full (c := c) hfull hlist hhead hentry hcut
  obtain ⟨h₂, hback, hin₂, hfull₂⟩ := run_full (c := c)
    (.cons (.spliceInit hne ((set_of_ne hne).trans (set_self ..)) (set_self ..)) (.nil _))
    (by simp [Op.Initialises]) hfull₁
  have hset : (((T.set list as).set head bs).set list []).set head (as ++ bs) = T.set list [] := by
    rw [set_comm _ hne.symm, set_set, set_set, set_eq_self ((set_of_ne hne.symm).trans hhead)]
  rw [hset] at hfull₂
  have hsame := (hfull₂.untrack hlist.2).unique hfull (hin.trans hin₂) (.refl S h)
  have hboth : run c h [cut, .spliceInit list head] =
      run c h [cut] >>= fun h => run c h [.spliceInit list head] := by
    simp [run]
  rw [hboth, hrun, ok_bind, hback, hsame]

theorem listSpliceInit_cut_one :
    run ⟨90, 91, 92⟩ ofTwo [.cutPosition 3 0 1, .spliceInit 3 0] = .ok ofTwo :=
  listSpliceInit_cut ofTwo_full ⟨by decide, by simp [oneTwo, Lists.has_nil_set]⟩ oneTwo_head
    (show 1 ∈ [0, 1, 2] by decide) (.inl rfl)

end Undone

end GoodCommand.KernelList
