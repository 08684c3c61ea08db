import GoodCommand.HashList.Runs

/-! The loops over the nodes of a list. The safe one reads the pointer to the next node before the
body runs. -/

namespace GoodCommand.HashList
open Fuel

variable {H N : Type} [DecidableEq H] [DecidableEq N] {S : Finset (Slot H N)} {h h' : Heap H N}
variable {t t' : Table H N} {hd : H} {n : N} {as bs xs ys visited : List N}
variable {body : Heap H N → N → Except (WildPointer H N) (Heap H N)}

omit [DecidableEq H] [DecidableEq N] in
theorem Heap.Represents.getTarget (hrep : h.Represents S t)
    (hhd : t.lists hd = some (as ++ bs)) :
    HashList.getTarget h ((as.map .next).getLastD (.first hd)) = .ok bs.head? := by
  obtain ⟨r, hm⟩ := hrep
  have hring := hm.ring hhd
  have hmem := Lists.getLastD_mem (.first hd) (as.map Slot.next) (bs.map Slot.next)
  rw [← List.map_append] at hmem
  have hlinked := hm.holds.entry_linked (Table.slots_first hhd) hmem
  rw [List.map_append] at hring
  rw [getTarget_ok (hm.wired.mapped _ (hm.wired.within hlinked)), hm.wired.linked.target _ hlinked,
    hring.apply_getLastD]
  cases bs <;> rfl

omit [DecidableEq H] [DecidableEq N] in
theorem Heap.Represents.getTarget_next (hrep : h.Represents S t)
    (hhd : t.lists hd = some (as ++ n :: bs)) : HashList.getTarget h (.next n) = .ok bs.head? := by
  rw [List.append_cons] at hhd
  have htarget := hrep.getTarget hhd
  rwa [List.map_append, List.map_singleton, List.getLastD_concat] at htarget

section Rule

variable {I : Heap H N → List N → Table H N → Prop}

omit [DecidableEq H] [DecidableEq N] in
/-- A body that leaves the nodes behind `pos` alone. -/
theorem hlistForEachSafe_rule (hI : ∀ h visited t, I h visited t → h.Represents S t)
    (hbody : ∀ h visited t as pos bs, I h visited t → t.lists hd = some (as ++ pos :: bs) →
      visited ++ pos :: bs = xs →
      ∃ h' t' as', body h pos = .ok h' ∧ I h' (visited ++ [pos]) t' ∧
        t'.lists hd = some (as' ++ bs))
    (hstart : I h [] t) (hhd : t.lists hd = some xs) :
    ∃ h' t', Returns (hlistForEachSafe body h hd) (h', xs) ∧ I h' xs t' := by
  have hloop : ∀ bs h visited t as, I h visited t → t.lists hd = some (as ++ bs) →
      visited ++ bs = xs → ∃ h' t',
        Returns (loop (hlistForEachSafeTurn body) (h, bs.head?, visited)) (h', xs) ∧
          I h' xs t' := by
    -- by induction on the nodes in front of the loop
    intro bs
    induction bs with
    | nil =>
      intro h visited t as hinv hhd hxs
      rw [List.append_nil] at hxs
      subst hxs
      exact ⟨h, t, returns_loop_exit (returns_of_eq rfl), hinv⟩
    | cons pos bs ih =>
      intro h visited t as hinv hhd hxs
      obtain ⟨h₁, t₁, as₁, hrun, hinv₁, hhd₁⟩ := hbody h visited t as pos bs hinv hhd hxs
      rw [List.append_cons] at hxs
      obtain ⟨h', t', hrest, hinv'⟩ := ih h₁ _ t₁ as₁ hinv₁ hhd₁ hxs
      refine ⟨h', t', returns_loop_next (returns_of_eq ?_) hrest, hinv'⟩
      simp [hlistForEachSafeTurn, (hI _ _ _ hinv).getTarget_next hhd, hrun]
  obtain ⟨h', t', hrun, hinv⟩ := hloop xs h [] t [] hstart hhd rfl
  have hfirst := (hI _ _ _ hstart).getTarget (show t.lists hd = some ([] ++ xs) from hhd)
  exact ⟨h', t', (returns_lift hfirst).bind hrun, hinv⟩

end Rule

def twoNodes : Heap Unit (Fin 3) :=
  ⟨fun _ => true, fun n => n ≠ 2, fun _ => some 0, fun n => if n = 0 then some 1 else none,
    fun n => some (if n = 0 then .first () else .next 0)⟩

def twoNodesTable : Table Unit (Fin 3) := ⟨fun _ => some [0, 1], fun _ => none⟩

theorem slot_cases (s : Slot Unit (Fin 3)) :
    s = .first () ∨ s = .next 0 ∨ s = .next 1 ∨ s = .next 2 := by
  rcases s with ⟨⟩ | n
  · exact .inl rfl
  · revert n
    decide

def twoNodesRings : Rings (Slot Unit (Fin 3)) where
  linked := {.first (), .next 0, .next 1}
  next := Equiv.swap (.first ()) (.next 0) * Equiv.swap (.next 0) (.next 1)
  alone s hs := by rcases slot_cases s with rfl | rfl | rfl | rfl <;> revert hs <;> decide

theorem twoNodes_represents : twoNodes.Represents {.first (), .next 0, .next 1} twoNodesTable := by
  have hheads : ∀ s ys, twoNodesTable.slots s = some ys →
      s = .first () ∧ ys = [.next 0, .next 1] := by
    rintro (⟨⟩ | n) ys hys
    · exact ⟨rfl, (Option.some.inj hys).symm⟩
    · cases hys
  have hhas : ∀ s ∈ twoNodesRings.linked, twoNodesTable.slots.Has s := by
    intro s hs
    refine ⟨.first (), [.next 0, .next 1], rfl, ?_⟩
    rcases slot_cases s with rfl | rfl | rfl | rfl <;> revert hs <;> decide
  refine ⟨twoNodesRings, ⟨by decide, subset_rfl, by decide, by decide⟩, ⟨fun s ys hs => ?_,
    fun s ys hs => ?_, fun s ys a zs hs ha => ?_, fun s hs => twoNodesRings.alone s fun hmem =>
      hs (hhas s hmem)⟩, hhas, nofun, nofun⟩
  · obtain ⟨rfl, -⟩ := hheads s ys hs
    decide
  · obtain ⟨rfl, rfl⟩ := hheads s ys hs
    exact ringAt_iff.mpr (by decide)
  · obtain ⟨-, rfl⟩ := hheads s ys hs
    obtain ⟨rfl, -⟩ := hheads a zs ha
    decide

/-! ### Removal -/

section Removal

variable {c : Constants H N} {p : N → Bool}
variable {del : Heap H N → N → Except (WildPointer H N) (Heap H N)}
variable {mark : Table H N → N → Table H N} {pos : N}

structure Removes (S : Finset (Slot H N)) (del : Heap H N → N → Except (WildPointer H N) (Heap H N))
    (mark : Table H N → N → Table H N) : Prop where
  lists : ∀ t n, (mark t n).lists = t.lists
  set : ∀ t n hd xs, (mark t n).set hd xs = mark (t.set hd xs) n
  represents : ∀ h t hd as n bs, h.Represents S t → t.lists hd = some (as ++ n :: bs) →
    ∃ h', del h n = .ok h' ∧ h.Within S h' ∧ h'.Represents S (mark (t.set hd (as ++ bs)) n)

theorem removes_hlistDel (S : Finset (Slot H N)) (c : Constants H N) :
    Removes S (hlistDel c) fun t _ => t where
  lists _ _ := rfl
  set _ _ _ _ := rfl
  represents _ _ _ _ _ _ hrep hhd := (Step.del hhd).represents c hrep

theorem removes_hlistDelInit (S : Finset (Slot H N)) :
    Removes S hlistDelInit fun t n => t.loosen n .idle where
  lists _ _ := rfl
  set _ _ _ _ := rfl
  represents _ _ hd _ n _ hrep hhd :=
    (Step.delInit hhd).represents ⟨n, .first hd⟩ hrep

namespace Removes

omit [DecidableEq N] in
theorem foldl_lists (hdel : Removes S del mark) (ns : List N) (t : Table H N) :
    (ns.foldl mark t).lists = t.lists := by
  induction ns generalizing t with
  | nil => rfl
  | cons n ns ih => exact (ih (mark t n)).trans (hdel.lists t n)

omit [DecidableEq N] in
theorem foldl_set (hdel : Removes S del mark) (ns : List N) (t : Table H N) (xs : List N) :
    (ns.foldl mark t).set hd xs = ns.foldl mark (t.set hd xs) := by
  induction ns generalizing t with
  | nil => rfl
  | cons n ns ih => rw [List.foldl_cons, ih, hdel.set, List.foldl_cons]

end Removes

structure Removing (S : Finset (Slot H N)) (h : Heap H N) (t : Table H N) (hd : H) (p : N → Bool)
    (mark : Table H N → N → Table H N) (xs : List N) (h' : Heap H N) (visited : List N)
    (t' : Table H N) : Prop where
  within : h.Within S h'
  represents : h'.Represents S t'
  contents : ∃ rest, visited ++ rest = xs ∧ t' = (visited.filter p).foldl mark
    (t.set hd (visited.filter (fun n => !p n) ++ rest))

omit [DecidableEq N] in
theorem Removing.turn (hinv : Removing S h t hd p mark xs h' visited t')
    (hdel : Removes S del mark) (hhd : t'.lists hd = some (as ++ pos :: bs))
    (hvisited : visited ++ pos :: bs = xs) :
    ∃ h'' t'' as', (if p pos then del h' pos else .ok h') = .ok h'' ∧
      Removing S h t hd p mark xs h'' (visited ++ [pos]) t'' ∧
        t''.lists hd = some (as' ++ bs) := by
  obtain ⟨hin, hrep, rest, hrest, rfl⟩ := hinv
  obtain rfl : rest = pos :: bs := List.append_cancel_left (hrest.trans hvisited.symm)
  have hkept : ∀ ys : List N, ((visited.filter p).foldl mark (t.set hd ys)).lists hd = some ys :=
    fun ys => (congrFun (hdel.foldl_lists _ _) hd).trans (Function.update_self ..)
  obtain rfl : visited.filter (fun n => !p n) = as :=
    List.append_cancel_right (Option.some.inj ((hkept _).symm.trans hhd))
  have hset : ∀ ys zs : List N, (t.set hd ys).set hd zs = t.set hd zs := fun ys zs =>
    Table.ext (Function.update_idem ..) rfl
  rw [List.append_cons] at hvisited
  by_cases hp : p pos = true
  · obtain ⟨h'', hrun, hin', hrep'⟩ := hdel.represents _ _ _ _ _ _ hrep hhd
    rw [hdel.foldl_set, hset] at hrep'
    refine ⟨h'', _, visited.filter fun n => !p n, by rw [if_pos hp, hrun],
      ⟨hin.trans hin', hrep', bs, hvisited, ?_⟩, ?_⟩
    · simp [hp]
    · rw [hdel.lists]
      exact hkept _
  · refine ⟨h', _, visited.filter (fun n => !p n) ++ [pos], if_neg hp,
      ⟨hin, hrep, bs, hvisited, ?_⟩, ?_⟩
    · simp [hp]
    · rw [hhd, List.append_cons]

omit [DecidableEq N] in
theorem hlistForEachSafe_removes (hdel : Removes S del mark) (p : N → Bool)
    (hrep : h.Represents S t) (hhd : t.lists hd = some xs) :
    ∃ h', Returns (hlistForEachSafe (fun h pos => if p pos then del h pos else .ok h) h hd)
        (h', xs) ∧ h.Within S h' ∧
      h'.Represents S ((xs.filter p).foldl mark (t.set hd (xs.filter fun n => !p n))) := by
  have hself : t.set hd xs = t := by
    rw [Table.set, ← hhd, Function.update_eq_self]
  obtain ⟨h', t', hrun, hin, hrep', rest, hrest, rfl⟩ := hlistForEachSafe_rule
    (I := Removing S h t hd p mark xs) (fun _ _ _ hinv => hinv.represents)
    (fun _ _ _ _ _ _ hinv hhd hvisited => hinv.turn hdel hhd hvisited)
    ⟨.refl S h, hrep, xs, rfl, hself.symm⟩ hhd
  obtain rfl : rest = [] := by simpa using hrest
  rw [List.append_nil] at hrep'
  exact ⟨h', hrun, hin, hrep'⟩

/-- The safe loop meets every node once, in order, though its body removes some of them. -/
theorem hlistForEachSafe_hlistDelInit (p : N → Bool) (hrep : h.Represents S t)
    (hhd : t.lists hd = some xs) :
    ∃ h', Returns (hlistForEachSafe (fun h pos => if p pos then hlistDelInit h pos else .ok h) h
        hd) (h', xs) ∧ h.Within S h' ∧
      h'.Represents S ((xs.filter p).foldl (fun t n => t.loosen n .idle)
        (t.set hd (xs.filter fun n => !p n))) :=
  hlistForEachSafe_removes (removes_hlistDelInit S) p hrep hhd

theorem hlistForEachSafe_hlistDelInit_second : ∃ h', Returns (hlistForEachSafe
      (fun h pos => if pos == 1 then hlistDelInit h pos else .ok h) twoNodes ()) (h', [0, 1]) ∧
    Heap.Within {.first (), .next 0, .next 1} twoNodes h' ∧
    h'.Represents {.first (), .next 0, .next 1}
      (([0, 1].filter (· == 1)).foldl (fun t n => t.loosen n .idle)
        (twoNodesTable.set () ([0, 1].filter fun n => !(n == 1)))) :=
  hlistForEachSafe_hlistDelInit (· == 1) twoNodes_represents rfl

omit [DecidableEq H] [DecidableEq N] in
theorem hlistForEach_nil (hrep : h.Represents S t) (hhd : t.lists hd = some []) :
    Returns (hlistForEach body h hd) (h, []) :=
  (returns_lift (hrep.getTarget (show t.lists hd = some ([] ++ []) from hhd))).bind
    (returns_loop_exit (returns_of_eq rfl))

theorem hlistDel_poison (hrun : hlistDel c h n = .ok h') :
    getTarget h' (.next n) = .ok (some c.poison1) := by
  obtain ⟨h₁, -, hrest⟩ := bind_ok hrun
  have hmapped : h₁.mapped (.next n) = true := by
    by_contra hout
    rw [setTarget, if_neg hout] at hrest
    cases hrest
  rw [setMembers_ok hmapped] at hrest
  obtain rfl := Except.ok.inj hrest
  rw [getTarget_ok (by rwa [Heap.mapped_withPprev, Heap.mapped_withTarget]),
    Heap.target_withPprev, Heap.target_withTarget, Function.update_self]

/-- The plain loop runs into the poison, unless there is nothing to remove. -/
theorem hlistForEach_hlistDel (hrep : h.Represents S t) (hhd : t.lists hd = some xs)
    (hpoison : h.mappedNode c.poison1 = false) :
    Faults (hlistForEach (hlistDel c) h hd) (.slot (.next c.poison1)) ↔ xs ≠ [] := by
  constructor
  · rintro hfaults rfl
    exact (hlistForEach_nil hrep hhd).not_faults hfaults
  · intro hne
    obtain ⟨n, xs, rfl⟩ := List.exists_cons_of_ne_nil hne
    have hfirst := hrep.getTarget (show t.lists hd = some ([] ++ n :: xs) from hhd)
    have hdel : t.lists hd = some ([] ++ n :: xs) := hhd
    obtain ⟨h', hrun, hin, -⟩ := (removes_hlistDel S c).represents _ _ _ _ _ _ hrep hdel
    have hmapped : h'.mappedNode c.poison1 = false :=
      (congrFun hin.mapped (.next c.poison1)).trans hpoison
    have hstop : hlistDel c h' c.poison1 = .error (.slot (.next c.poison1)) := by
      rw [hlistDel, hlistUnlink, getTarget, if_neg (by simp [Heap.mapped, hmapped])]
      rfl
    -- the first turn deletes `n` and reads the poison, the second one deletes the poison
    refine (returns_lift hfirst).bind_faults (faults_loop_next (returns_of_eq ?_) (faults_loop
      (s := (h', some c.poison1, [n])) ⟨0, fun k _ => ?_⟩))
    · simp [hlistForEachTurn, hrun, hlistDel_poison hrun]
    · simp [hlistForEachTurn, hstop]
      rfl

theorem hlistForEach_hlistDel_twoNodes :
    Faults (hlistForEach (hlistDel ⟨2, .first ()⟩) twoNodes ()) (.slot (.next 2)) ↔
      [0, 1] ≠ ([] : List (Fin 3)) :=
  hlistForEach_hlistDel twoNodes_represents rfl rfl

/-- Where the nodes are initialised as they are removed, the plain loop ends behind the first of
them, and the others stay on the list. -/
theorem hlistForEach_hlistDelInit (hrep : h.Represents S t) (hhd : t.lists hd = some (n :: xs)) :
    ∃ h', Returns (hlistForEach hlistDelInit h hd) (h', [n]) ∧ h.Within S h' ∧
      h'.Represents S ((t.set hd xs).loosen n .idle) := by
  have hdel : t.lists hd = some ([] ++ n :: xs) := hhd
  obtain ⟨h', hrun, hin, hrep'⟩ := (removes_hlistDelInit S).represents _ _ _ _ _ _ hrep hdel
  have hnext : getTarget h' (.next n) = .ok none := by
    obtain ⟨r, hm⟩ := hrep'
    obtain ⟨hmem, hnext, -⟩ := hm.loose n .idle (Function.update_self ..)
    exact (getTarget_ok (hm.wired.mapped _ hmem)).trans (congrArg Except.ok hnext)
  have hexit : hlistForEachTurn hlistDelInit (h', none, [n]) = pure (.exit (h', [n])) := rfl
  refine ⟨h', (returns_lift (hrep.getTarget hdel)).bind (returns_loop_next (returns_of_eq ?_)
    (returns_loop_exit (returns_of_eq hexit))), hin, hrep'⟩
  simp [hlistForEachTurn, hrun, hnext]

theorem hlistForEach_hlistDelInit_twoNodes :
    ∃ h', Returns (hlistForEach hlistDelInit twoNodes ()) (h', [0]) ∧
      Heap.Within {.first (), .next 0, .next 1} twoNodes h' ∧
      h'.Represents {.first (), .next 0, .next 1} ((twoNodesTable.set () [1]).loosen 0 .idle) :=
  hlistForEach_hlistDelInit twoNodes_represents rfl

end Removal

/-! ### Redistribution -/

section Redistribution

variable {c : Constants H N} {f : N → H} {pos : N}

structure Rehashing (S : Finset (Slot H N)) (h : Heap H N) (t : Table H N) (hd : H) (f : N → H)
    (xs : List N) (h' : Heap H N) (visited : List N) (t' : Table H N) : Prop where
  within : h.Within S h'
  represents : h'.Represents S t'
  loose : t'.loose = t.loose
  lists : ∃ rest, visited ++ rest = xs ∧ ∀ hd', t'.lists hd' = (t.lists hd').map fun ys =>
    (visited.filter fun n => f n = hd').reverse ++ if hd' = hd then rest else ys

theorem Rehashing.turn (hinv : Rehashing S h t hd f xs h' visited t')
    (hheads : ∀ n ∈ xs, (t.lists (f n)).isSome) (hhd : t'.lists hd = some (as ++ pos :: bs))
    (hvisited : visited ++ pos :: bs = xs) :
    ∃ h'' t'' as', (do let h ← hlistDel c h' pos; hlistAddHead h pos (f pos)) = .ok h'' ∧
      Rehashing S h t hd f xs h'' (visited ++ [pos]) t'' ∧ t''.lists hd = some (as' ++ bs) := by
  obtain ⟨hin, hrep, hloose, rest, hrest, hlists⟩ := hinv
  obtain rfl : rest = pos :: bs := List.append_cancel_left (hrest.trans hvisited.symm)
  obtain ⟨ys, hys⟩ : ∃ ys, t.lists hd = some ys := by
    cases h' : t.lists hd with
    | none => simp [hlists, h'] at hhd
    | some ys => exact ⟨ys, rfl⟩
  obtain rfl : (visited.filter fun n => f n = hd).reverse = as := by
    rw [hlists, hys, Option.map_some, if_pos rfl, Option.some.injEq] at hhd
    exact List.append_cancel_right hhd
  have hmem : pos ∈ xs := hvisited ▸ List.mem_append_right _ List.mem_cons_self
  obtain ⟨zs, hzs⟩ := Option.isSome_iff_exists.mp (hheads pos hmem)
  have hfree : .next pos ∈ S ∧ t'.loose pos = none ∧
      ¬(t'.set hd ((visited.filter fun n => f n = hd).reverse ++ bs)).Listed pos := by
    obtain ⟨r, hm⟩ := hrep
    have hlisted : pos ∈ (visited.filter fun n => f n = hd).reverse ++ pos :: bs := by simp
    exact ⟨hm.wired.within (hm.node_linked hhd hlisted), hm.loose_eq_none ⟨hd, _, hhd, hlisted⟩,
      hm.leave_free hhd⟩
  -- the list of `f pos` without `pos`, which may be the list that the loop is in
  have hhead : (t'.set hd ((visited.filter fun n => f n = hd).reverse ++ bs)).lists (f pos) =
      some ((visited.filter fun n => f n = f pos).reverse ++ if f pos = hd then bs else zs) := by
    rcases eq_or_ne (f pos) hd with heq | hne
    · rw [heq, if_pos rfl]
      exact Function.update_self ..
    · refine (Function.update_of_ne hne _ _).trans ?_
      rw [hlists, hzs, Option.map_some, if_neg hne, if_neg hne]
  obtain ⟨h₁, hrun₁, hin₁, hrep₁⟩ := (Step.del hhd).represents c hrep
  obtain ⟨h₂, hrun₂, hin₂, hrep₂⟩ := (Step.addHead hfree.1 hfree.2.2 hhead).represents c hrep₁
  have hlists₂ : ∀ hd', (((t'.set hd ((visited.filter fun n => f n = hd).reverse ++ bs)).forget
      pos).set (f pos) (pos :: ((visited.filter fun n => f n = f pos).reverse ++
        if f pos = hd then bs else zs))).lists hd' = (t.lists hd').map fun ys =>
      ((visited ++ [pos]).filter fun n => f n = hd').reverse ++ if hd' = hd then bs else ys := by
    intro hd'
    rcases eq_or_ne hd' (f pos) with rfl | hne
    · refine (Function.update_self ..).trans ?_
      simp [hzs]
    · refine (Function.update_of_ne hne _ _).trans ?_
      have hfilter : (visited ++ [pos]).filter (fun n => f n = hd') =
          visited.filter fun n => f n = hd' := by simp [hne.symm]
      rw [hfilter]
      rcases eq_or_ne hd' hd with rfl | hne'
      · refine (Function.update_self ..).trans ?_
        rw [hys, Option.map_some, if_pos rfl]
      · refine (Function.update_of_ne hne' _ _).trans ?_
        simp only [hlists, if_neg hne']
  refine ⟨h₂, _, ((visited ++ [pos]).filter fun n => f n = hd).reverse, ?_,
    ⟨hin.trans (hin₁.trans hin₂), hrep₂, ?_, bs, ?_, hlists₂⟩, ?_⟩
  · simp only [Op.run] at hrun₁ hrun₂
    rw [hrun₁, ok_bind, hrun₂]
  · have hforget : t'.forget pos = t' := Table.forget_eq_self hfree.2.1
    exact (congrArg Table.loose hforget).trans hloose
  · rw [List.append_assoc, List.singleton_append, hvisited]
  · rw [hlists₂, hys, Option.map_some, if_pos rfl]

/-- The safe loop that takes each node from the list and adds it to the list of its own head leaves
the nodes there in the opposite order, in front of those that have been there before. -/
theorem hlistForEachSafe_rehash (hrep : h.Represents S t) (hhd : t.lists hd = some xs)
    (hheads : ∀ n ∈ xs, (t.lists (f n)).isSome) :
    ∃ h', Returns (hlistForEachSafe
        (fun h pos => do let h ← hlistDel c h pos; hlistAddHead h pos (f pos)) h hd) (h', xs) ∧
      h.Within S h' ∧ h'.Represents S ⟨fun hd' => (t.lists hd').map fun ys =>
        (xs.filter fun n => f n = hd').reverse ++ if hd' = hd then [] else ys, t.loose⟩ := by
  have hstart : ∀ hd', t.lists hd' = (t.lists hd').map fun ys =>
      (([] : List N).filter fun n => f n = hd').reverse ++ if hd' = hd then xs else ys := by
    intro hd'
    rcases eq_or_ne hd' hd with rfl | hne
    · simp [hhd]
    · simp [hne]
  obtain ⟨h', t', hrun, hin, hrep', hloose, rest, hrest, hlists⟩ := hlistForEachSafe_rule
    (I := Rehashing S h t hd f xs) (fun _ _ _ hinv => hinv.represents)
    (fun _ _ _ _ _ _ hinv hhd hvisited => hinv.turn (c := c) hheads hhd hvisited)
    ⟨.refl S h, hrep, rfl, xs, rfl, hstart⟩ hhd
  obtain rfl : rest = [] := by simpa using hrest
  have htable : t' = ⟨fun hd' => (t.lists hd').map fun ys =>
      (xs.filter fun n => f n = hd').reverse ++ if hd' = hd then [] else ys, t.loose⟩ :=
    Table.ext (funext hlists) hloose
  exact ⟨h', hrun, hin, htable ▸ hrep'⟩

theorem hlistForEachSafe_rehash_same : ∃ h', Returns (hlistForEachSafe
      (fun h pos => do let h ← hlistDel ⟨2, .first ()⟩ h pos; hlistAddHead h pos ()) twoNodes ())
        (h', [0, 1]) ∧
    Heap.Within {.first (), .next 0, .next 1} twoNodes h' ∧
    h'.Represents {.first (), .next 0, .next 1}
      ⟨fun hd' => (twoNodesTable.lists hd').map fun ys =>
        (([0, 1] : List (Fin 3)).filter fun _ => () = hd').reverse ++ if hd' = () then [] else ys,
        twoNodesTable.loose⟩ :=
  hlistForEachSafe_rehash (f := fun _ => ()) twoNodes_represents rfl fun _ _ => rfl

end Redistribution

end GoodCommand.HashList
