import GoodCommand.KernelList.Traversal

/-! A safe loop that drops the lock of its list in the body, and resets its stale pointer with
`list_safe_reset_next` when it has taken the lock again. In between others may change the list, but
for the entry that the loop stands at. -/

namespace GoodCommand.KernelList
open Fuel

variable {A : Type} [DecidableEq A]

/-- `list_for_each_entry_safe(pos, n, head, member)` with a body that lets others make the calls at
the front of `batches` and then does `list_safe_reset_next(pos, n, member)`. The state is the heap,
`pos`, `n` and the entries that have been visited. -/
def forEachResetTurn (c : Constants A) (head : A)
    (st : List (List (Op A)) × Heap A × A × A × List A) : Prog (WildPointer A)
      (Ctl (List (List (Op A)) × Heap A × A × A × List A) (Heap A × List A)) := do
  let (batches, h, pos, _, visited) := st
  if pos ≠ head then
    let h ← run c h (batches.headD [])
    -- `list_safe_reset_next`: the `n` from before the lock was dropped may be gone
    let n ← getNext h pos
    let n' ← getNext h n
    return .next (batches.tail, h, n, n', visited ++ [pos])
  else return .exit (h, visited)

def forEachReset (c : Constants A) (batches : List (List (Op A))) (h : Heap A) (head : A) :
    Prog (WildPointer A) (Heap A × List A) := do
  let pos ← getNext h head
  let n ← getNext h pos
  loop (forEachResetTurn c head) (batches, h, pos, n, [])

variable {c : Constants A} {S : Finset A} {head pos : A} {K : A → Bool} {h h' : Heap A}
variable {T T' : Lists A} {as bs xs visited : List A} {batches : List (List (Op A))}

/-- The loop has come behind `as` and has `bs` before it. While it stands at an entry, others make
any calls that leave the entry on the list, and those behind it that are in `K`, in their order.
It visits `visited`, and `T'` is what it leaves. -/
inductive Meanwhile (S : Finset A) (head : A) (K : A → Bool) :
    List (List (Op A)) → Lists A → List A → List A → List A → Lists A → Prop where
  | quiet {T : Lists A} {as bs : List A} (hhead : T head = some (as ++ bs)) :
      Meanwhile S head K [] T as bs bs T
  | ended {batches : List (List (Op A))} {T : Lists A} {as : List A} (hhead : T head = some as) :
      Meanwhile S head K batches T as [] [] T
  | turn {ops : List (Op A)} {batches : List (List (Op A))} {T T' T'' : Lists A} {pos : A}
      {as as' bs bs' visited : List A} (hhead : T head = some (as ++ pos :: bs))
      (hsteps : Steps S T ops T') (hpinned : T' head = some (as' ++ pos :: bs'))
      (hkeep : bs'.filter K = bs.filter K)
      (hrest : Meanwhile S head K batches T' (as' ++ [pos]) bs' visited T'') :
      Meanwhile S head K (ops :: batches) T as (pos :: bs) (pos :: visited) T''

theorem Meanwhile.filter (hmean : Meanwhile S head K batches T as bs visited T') :
    visited.filter K = bs.filter K := by
  induction hmean with
  | quiet _ => rfl
  | ended _ => rfl
  | turn _ _ _ hkeep _ ih => rw [List.filter_cons, List.filter_cons, ih, hkeep]

omit [DecidableEq A] in
theorem getNext_behind (hrep : h.Represents S T) (hhead : T head = some (as ++ pos :: bs)) :
    getNext h pos = .ok (bs.headD head) := Direction.next.link_behind hrep hhead rfl

omit [DecidableEq A] in
theorem exists_getNext (hrep : h.Represents S T) (hhead : T head = some (as ++ bs)) :
    ∃ n, getNext h (bs.headD head) = .ok n := by
  cases bs with
  | nil => exact ⟨_, Direction.next.link_head hrep hhead⟩
  | cons b bs => exact ⟨_, getNext_behind hrep hhead⟩

/-- One turn: whatever the others have done, the loop goes on behind `pos`. -/
theorem forEachResetTurn_eq (n : A) (visited : List A) (hne : pos ≠ head)
    (hrun : run c h (batches.headD []) = .ok h') (hrep : h'.Represents S T')
    (hpinned : T' head = some (as ++ pos :: bs)) :
    ∃ n', forEachResetTurn c head (batches, h, pos, n, visited) =
      pure (.next (batches.tail, h', bs.headD head, n', visited ++ [pos])) := by
  have hnext := getNext_behind hrep hpinned
  rw [List.append_cons] at hpinned
  obtain ⟨n', hn'⟩ := exists_getNext hrep hpinned
  refine ⟨n', ?_⟩
  rw [List.headD_eq_head?_getD] at hrun hnext hn' ⊢
  simp [forEachResetTurn, hne, hrun, hnext, hn']

theorem forEachReset_exit {n : A} : Returns (loop (forEachResetTurn c head)
    (batches, h, head, n, visited)) (h, visited) :=
  returns_loop_exit (returns_of_eq (by simp [forEachResetTurn]))

theorem forEachReset_quiet (n : A) (visited : List A) (hrep : h.Represents S T)
    (hhead : T head = some (as ++ bs)) :
    Returns (loop (forEachResetTurn c head) ([], h, bs.headD head, n, visited))
      (h, visited ++ bs) := by
  induction bs generalizing as n visited with
  | nil =>
    rw [List.append_nil]
    exact forEachReset_exit
  | cons pos bs ih =>
    have hne := ne_head hrep hhead (List.mem_append_right as List.mem_cons_self)
    have hnone : run c h (([] : List (List (Op A))).headD []) = .ok h := rfl
    obtain ⟨n', hturn⟩ := forEachResetTurn_eq n visited hne hnone hrep hhead
    rw [List.append_cons] at hhead
    have hrest := ih n' (visited ++ [pos]) hhead
    rw [List.append_assoc, List.singleton_append] at hrest
    exact returns_loop_next (returns_of_eq hturn) hrest

theorem forEachReset_run (n : A) (before : List A)
    (hmean : Meanwhile S head K batches T as bs visited T') (hrep : h.Represents S T) :
    ∃ h', Returns (loop (forEachResetTurn c head) (batches, h, bs.headD head, n, before))
        (h', before ++ visited) ∧ h.Within S h' ∧ h'.Represents S T' := by
  induction hmean generalizing h n before with
  | quiet hhead => exact ⟨h, forEachReset_quiet n before hrep hhead, .refl S h, hrep⟩
  | ended _ =>
    rw [List.append_nil]
    exact ⟨h, forEachReset_exit, .refl S h, hrep⟩
  | @turn ops batches T T₁ T'' pos as as' bs bs' visited hhead hsteps hpinned _ _ ih =>
    have hne := ne_head hrep hhead (List.mem_append_right as List.mem_cons_self)
    obtain ⟨h₁, hrun, hin, hrep₁, -⟩ := run_represents (c := c) hsteps hrep
    have hops : run c h ((ops :: batches).headD []) = .ok h₁ := hrun
    obtain ⟨n', hturn⟩ := forEachResetTurn_eq n before hne hops hrep₁ hpinned
    obtain ⟨h', hret, hin', hrep'⟩ := ih n' (before ++ [pos]) hrep₁
    rw [List.append_assoc, List.singleton_append] at hret
    exact ⟨h', returns_loop_next (returns_of_eq hturn) hret, hin.trans hin', hrep'⟩

/-- The loop ends, dereferences no wild pointer, and meets each of the entries that others leave
behind the one it stands at exactly once, in order. -/
theorem forEachReset_meanwhile (hmean : Meanwhile S head K batches T [] xs visited T')
    (hrep : h.Represents S T) (hhead : T head = some xs) :
    ∃ h', Returns (forEachReset c batches h head) (h', visited) ∧ h.Within S h' ∧
      h'.Represents S T' ∧ visited.filter K = xs.filter K := by
  have hfirst : getNext h head = .ok (xs.headD head) := Direction.next.link_head hrep hhead
  obtain ⟨n, hn⟩ := exists_getNext hrep (show T head = some ([] ++ xs) from hhead)
  obtain ⟨h', hrun, hin, hrep'⟩ := forEachReset_run (c := c) n [] hmean hrep
  refine ⟨h', ?_, hin, hrep', hmean.filter⟩
  unfold forEachReset
  rw [hfirst]
  exact (returns_lift hn).bind hrun

theorem forEachReset_meanwhile_of_two : ∃ h',
    Returns (forEachReset ⟨90, 91, 92⟩ [[.addTail 3 0], [.del 1]] ofTwo 0) (h', [1, 2, 3]) ∧
      ofTwo.Within {0, 1, 2, 3} h' ∧
      h'.Represents {0, 1, 2, 3} ((oneTwo.set 0 [1, 2, 3]).set 0 [2, 3]) ∧
      [1, 2, 3].filter (· != 3) = [1, 2].filter (· != 3) := by
  have hfirst : oneTwo.set 0 [1, 2, 3] 0 = some ([] ++ 1 :: [2, 3]) := rfl
  have hsecond : oneTwo.set 0 [1, 2, 3] 0 = some ([1] ++ 2 :: [3]) := rfl
  have hthird : (oneTwo.set 0 [1, 2, 3]).set 0 [2, 3] 0 = some ([] ++ 2 :: [3]) := rfl
  have hadd : Steps {0, 1, 2, 3} oneTwo [.addTail 3 0] (oneTwo.set 0 [1, 2, 3]) :=
    .cons (.addTail ⟨by decide, by simp [oneTwo, Lists.has_nil_set]⟩ oneTwo_head) (.nil _)
  have hdel : Steps {0, 1, 2, 3} (oneTwo.set 0 [1, 2, 3]) [.del 1]
      ((oneTwo.set 0 [1, 2, 3]).set 0 [2, 3]) := .cons (.del hfirst) (.nil _)
  exact forEachReset_meanwhile (.turn oneTwo_head hadd hfirst rfl
    (.turn hsecond hdel hthird rfl (.quiet hthird))) ofTwo_full.represents oneTwo_head

end GoodCommand.KernelList
