import GoodCommand.KernelList.SameHeap

/-! The loops of `linux/list.h` over the entries of a list, in both directions. The safe ones read
the pointer to the next entry before the body runs. -/

namespace GoodCommand.KernelList
open Fuel
open GoodCommand.Lists (set_comm set_self set_of_ne set_set set_eq_self)

variable {A : Type} [DecidableEq A]

/-! ### The loops -/

inductive Direction where
  | next
  | prev

/-- `p->next` or `p->prev`. -/
def Direction.link : Direction → Heap A → A → Except (WildPointer A) A
  | next => getNext
  | prev => getPrev

/-- `for (pos = head->next; pos != head; pos = pos->next)`, or with `prev`, with the heap, `pos` and
the entries that have been visited. -/
def forEachTurn (d : Direction) (body : Heap A → A → Except (WildPointer A) (Heap A)) (head : A)
    (st : Heap A × A × List A) :
    Prog (WildPointer A) (Ctl (Heap A × A × List A) (Heap A × List A)) := do
  let (h, pos, visited) := st
  if pos ≠ head then
    let h ← body h pos
    let pos' ← d.link h pos
    return .next (h, pos', visited ++ [pos])
  else return .exit (h, visited)

def forEach (d : Direction) (body : Heap A → A → Except (WildPointer A) (Heap A)) (h : Heap A)
    (head : A) : Prog (WildPointer A) (Heap A × List A) := do
  let pos ← d.link h head
  loop (forEachTurn d body head) (h, pos, [])

/-- `list_for_each(pos, head)` -/
def listForEach (body : Heap A → A → Except (WildPointer A) (Heap A)) (h : Heap A) (head : A) :
    Prog (WildPointer A) (Heap A × List A) := forEach .next body h head

/-- `list_for_each_prev(pos, head)` -/
def listForEachPrev (body : Heap A → A → Except (WildPointer A) (Heap A)) (h : Heap A) (head : A) :
    Prog (WildPointer A) (Heap A × List A) := forEach .prev body h head

/-- `for (pos = head->next, n = pos->next; pos != head; pos = n, n = pos->next)`, or with `prev`,
with the heap, `pos`, `n` and the entries that have been visited. -/
def forEachSafeTurn (d : Direction) (body : Heap A → A → Except (WildPointer A) (Heap A)) (head : A)
    (st : Heap A × A × A × List A) :
    Prog (WildPointer A) (Ctl (Heap A × A × A × List A) (Heap A × List A)) := do
  let (h, pos, n, visited) := st
  if pos ≠ head then
    let h ← body h pos
    let n' ← d.link h n
    return .next (h, n, n', visited ++ [pos])
  else return .exit (h, visited)

def forEachSafe (d : Direction) (body : Heap A → A → Except (WildPointer A) (Heap A)) (h : Heap A)
    (head : A) : Prog (WildPointer A) (Heap A × List A) := do
  let pos ← d.link h head
  let n ← d.link h pos
  loop (forEachSafeTurn d body head) (h, pos, n, [])

/-- `list_for_each_safe(pos, n, head)` -/
def listForEachSafe (body : Heap A → A → Except (WildPointer A) (Heap A)) (h : Heap A) (head : A) :
    Prog (WildPointer A) (Heap A × List A) := forEachSafe .next body h head

/-- `list_for_each_prev_safe(pos, n, head)` -/
def listForEachPrevSafe (body : Heap A → A → Except (WildPointer A) (Heap A)) (h : Heap A)
    (head : A) : Prog (WildPointer A) (Heap A × List A) := forEachSafe .prev body h head

/-! ### What they visit -/

/-- The entries of a list in the order in which a loop meets them. -/
def Direction.view : Direction → List A → List A
  | next => id
  | prev => List.reverse

section Direction

omit [DecidableEq A]

variable {S : Finset A} {h : Heap A} {T : Lists A} {head a : A} {as bs xs ys : List A}
variable (d : Direction)

namespace Direction

@[simp] theorem view_view (xs : List A) : d.view (d.view xs) = xs := by
  cases d with
  | next => rfl
  | prev => exact List.reverse_reverse xs

@[simp] theorem mem_view : a ∈ d.view xs ↔ a ∈ xs := by
  cases d with
  | next => rfl
  | prev => exact List.mem_reverse

theorem filter_view (p : A → Bool) (xs : List A) : (d.view xs).filter p = d.view (xs.filter p) := by
  cases d with
  | next => rfl
  | prev => exact List.filter_reverse

theorem exists_of_view (hxs : d.view xs = as ++ a :: bs) :
    ∃ as' bs', xs = as' ++ a :: bs' ∧ d.view (as' ++ bs') = as ++ bs := by
  cases d with
  | next => exact ⟨as, bs, hxs, rfl⟩
  | prev =>
    refine ⟨bs.reverse, as.reverse, ?_, by simp [view]⟩
    rw [← List.reverse_reverse xs]
    simp [show xs.reverse = as ++ a :: bs from hxs]

theorem link_eq (hrep : h.Represents S T) (hhead : T head = some xs)
    (hxs : d.view xs = as ++ bs) : d.link h (as.getLastD head) = .ok (bs.headD head) := by
  obtain ⟨r, hw, hT⟩ := hrep
  have hmem : as.getLastD head ∈ head :: xs := by
    have hview := Lists.getLastD_mem head as bs
    rw [← hxs, List.mem_cons, mem_view] at hview
    exact List.mem_cons.mpr hview
  have hring := hT.ring _ _ hhead
  cases d with
  | next =>
    obtain rfl : xs = as ++ bs := hxs
    exact (hw.getNext (hT.entry_linked hhead hmem)).trans (by rw [hring.apply_getLastD])
  | prev =>
    have hback := hring.inv
    rw [show xs.reverse = as ++ bs from hxs] at hback
    exact (hw.getPrev (hT.entry_linked hhead hmem)).trans (by rw [hback.apply_getLastD])

theorem link_head (hrep : h.Represents S T) (hhead : T head = some xs) :
    d.link h head = .ok ((d.view xs).headD head) :=
  d.link_eq hrep hhead (List.nil_append _).symm

theorem link_behind (hrep : h.Represents S T) (hhead : T head = some xs)
    (hxs : d.view xs = as ++ a :: bs) : d.link h a = .ok (bs.headD head) := by
  rw [List.append_cons] at hxs
  have hlink := d.link_eq hrep hhead hxs
  rwa [List.getLastD_concat] at hlink

end Direction

theorem ne_head {pos : A} (hrep : h.Represents S T) (hhead : T head = some ys)
    (hpos : pos ∈ ys) : pos ≠ head := by
  obtain ⟨r, -, hT⟩ := hrep
  rintro rfl
  exact hT.apart _ _ _ _ hhead hhead hpos

end Direction

section Visits

variable {S : Finset A} {h : Heap A} {T : Lists A} {head : A} {xs ys : List A}
variable {body : Heap A → A → Except (WildPointer A) (Heap A)} (d : Direction)
variable {I : Heap A → List A → Lists A → Prop}

/-- A body that leaves the entries before `pos` and behind it alone. -/
theorem forEach_rule (hI : ∀ h visited T, I h visited T → h.Represents S T)
    (hbody : ∀ h visited T ys as pos bs, I h visited T → T head = some ys →
      d.view ys = as ++ pos :: bs → visited ++ pos :: bs = xs →
      ∃ h' T' ys' as', body h pos = .ok h' ∧ I h' (visited ++ [pos]) T' ∧ T' head = some ys' ∧
        d.view ys' = as' ++ pos :: bs)
    (hstart : I h [] T) (hhead : T head = some ys) (hys : d.view ys = xs) :
    ∃ h' T', Returns (forEach d body h head) (h', xs) ∧ I h' xs T' := by
  have hloop : ∀ bs h visited T ys as, I h visited T → T head = some ys → d.view ys = as ++ bs →
      visited ++ bs = xs → ∃ h' T',
        Returns (loop (forEachTurn d body head) (h, bs.headD head, visited)) (h', xs) ∧
          I h' xs T' := by
    intro bs
    induction bs with
    | nil =>
      intro h visited T ys as hinv hhead hview hxs
      rw [List.append_nil] at hxs
      subst hxs
      exact ⟨h, T, returns_loop_exit (returns_of_eq (by simp [forEachTurn])), hinv⟩
    | cons pos bs ih =>
      intro h visited T ys as hinv hhead hview hxs
      have hne := ne_head (hI _ _ _ hinv) hhead (d.mem_view.mp (hview ▸ by simp : pos ∈ d.view ys))
      obtain ⟨h₁, T₁, ys₁, as₁, hrun, hinv₁, hhead₁, hview₁⟩ :=
        hbody h visited T ys as pos bs hinv hhead hview hxs
      -- the body has left what is behind `pos` alone, so the link is the next entry of the list
      have hlink := d.link_behind (hI _ _ _ hinv₁) hhead₁ hview₁
      rw [List.append_cons] at hview₁ hxs
      obtain ⟨h', T', hrest, hinv'⟩ := ih h₁ (visited ++ [pos]) T₁ ys₁ _ hinv₁ hhead₁ hview₁ hxs
      refine ⟨h', T', returns_loop_next (returns_of_eq ?_) hrest, hinv'⟩
      simp [forEachTurn, hne, hrun, hlink]
  obtain ⟨h', T', hrun, hinv⟩ := hloop xs h [] T ys [] hstart hhead hys rfl
  subst hys
  exact ⟨h', T', (returns_lift (d.link_head (hI _ _ _ hstart) hhead)).bind hrun, hinv⟩

/-- A body that leaves the entries behind `pos` alone. -/
theorem forEachSafe_rule (hI : ∀ h visited T, I h visited T → h.Represents S T)
    (hbody : ∀ h visited T ys as pos bs, I h visited T → T head = some ys →
      d.view ys = as ++ pos :: bs → visited ++ pos :: bs = xs →
      ∃ h' T' ys' as', body h pos = .ok h' ∧ I h' (visited ++ [pos]) T' ∧ T' head = some ys' ∧
        d.view ys' = as' ++ bs)
    (hstart : I h [] T) (hhead : T head = some ys) (hys : d.view ys = xs) :
    ∃ h' T', Returns (forEachSafe d body h head) (h', xs) ∧ I h' xs T' := by
  have hnext : ∀ {h T ys as bs}, h.Represents S T → T head = some ys → d.view ys = as ++ bs →
      ∃ n, d.link h (bs.headD head) = .ok n ∧ (bs ≠ [] → n = bs.tail.headD head) := by
    intro h T ys as bs hrep hhead hview
    cases bs with
    | nil => exact ⟨_, d.link_head hrep hhead, fun hne => absurd rfl hne⟩
    | cons b bs => exact ⟨_, d.link_behind hrep hhead hview, fun _ => rfl⟩
  -- `n` is read ahead: at the end of the list it is of no account
  have hloop : ∀ bs h visited T ys as n, I h visited T → T head = some ys → d.view ys = as ++ bs →
      visited ++ bs = xs → (bs ≠ [] → n = bs.tail.headD head) → ∃ h' T',
        Returns (loop (forEachSafeTurn d body head) (h, bs.headD head, n, visited)) (h', xs) ∧
          I h' xs T' := by
    intro bs
    induction bs with
    | nil =>
      intro h visited T ys as n hinv hhead hview hxs hn
      rw [List.append_nil] at hxs
      subst hxs
      exact ⟨h, T, returns_loop_exit (returns_of_eq (by simp [forEachSafeTurn])), hinv⟩
    | cons pos bs ih =>
      intro h visited T ys as n hinv hhead hview hxs hn
      obtain rfl := hn (List.cons_ne_nil _ _)
      have hne := ne_head (hI _ _ _ hinv) hhead (d.mem_view.mp (hview ▸ by simp : pos ∈ d.view ys))
      obtain ⟨h₁, T₁, ys₁, as₁, hrun, hinv₁, hhead₁, hview₁⟩ :=
        hbody h visited T ys as pos bs hinv hhead hview hxs
      rw [List.append_cons] at hxs
      obtain ⟨n, hlink, hn⟩ := hnext (hI _ _ _ hinv₁) hhead₁ hview₁
      obtain ⟨h', T', hrest, hinv'⟩ := ih h₁ _ T₁ ys₁ _ n hinv₁ hhead₁ hview₁ hxs hn
      refine ⟨h', T', returns_loop_next (returns_of_eq ?_) hrest, hinv'⟩
      rw [List.headD_eq_head?_getD] at hlink
      simp [forEachSafeTurn, hne, hrun, hlink]
  subst hys
  have hfirst := d.link_head (hI _ _ _ hstart) hhead
  obtain ⟨n, hlink, hn⟩ := hnext (hI _ _ _ hstart) hhead (List.nil_append (d.view ys)).symm
  obtain ⟨h', T', hrun, hinv⟩ := hloop _ h [] T ys [] n hstart hhead rfl rfl hn
  exact ⟨h', T', (returns_lift hfirst).bind ((returns_lift hlink).bind hrun), hinv⟩

/-- The loops meet the entries that a run has left in the list, in order or in the opposite order.
-/
theorem forEach_run {c : Constants A} {ops : List (Op A)} {T' : Lists A}
    (hsteps : Steps S T ops T') (hrep : h.Represents S T) (hhead : T' head = some xs) :
    ∃ h', run c h ops = .ok h' ∧
      Returns (forEach d (fun h _ => .ok h) h' head) (h', d.view xs) := by
  obtain ⟨h', hrun, -, hrep', -⟩ := run_represents (c := c) hsteps hrep
  have hvisits := forEach_rule d (I := fun h'' _ T'' => h'' = h' ∧ h'.Represents S T'')
    (fun _ _ _ hinv => hinv.1 ▸ hinv.2)
    (fun h'' _ T'' ys as _ _ hinv hys hview _ => ⟨h'', T'', ys, as, rfl, hinv, hys, hview⟩)
    ⟨rfl, hrep'⟩ hhead rfl
  obtain ⟨h'', T'', hvisits, rfl, -⟩ := hvisits
  exact ⟨h'', hrun, hvisits⟩

theorem forEach_run_of_two : ∃ h', run ⟨90, 91, 92⟩ ofTwo [.rotateLeft 0] = .ok h' ∧
    Returns (forEach .prev (fun h _ => .ok h) h' 0) (h', Direction.prev.view ([1, 2].rotate 1)) :=
  forEach_run .prev (.cons (.rotateLeft (set_self ..)) (.nil _)) ofTwo_full.represents (set_self ..)

end Visits

/-! ### Deletion -/

section Deletion

variable {c : Constants A} {S : Finset A} {h h' : Heap A} {T T' : Lists A} {head list : A}
variable {as bs xs ys visited : List A} {p : A → Bool} {d : Direction} {e : A}

structure Deleting (S : Finset A) (h : Heap A) (T : Lists A) (head : A) (d : Direction)
    (p : A → Bool) (xs : List A) (h' : Heap A) (visited : List A) (T' : Lists A) : Prop where
  within : h.Within S h'
  represents : h'.Represents S T'
  contents : ∃ zs rest, T' = T.set head zs ∧ visited ++ rest = d.view xs ∧
    d.view zs = visited.filter (fun a => !p a) ++ rest

theorem Deleting.turn {pos : A} (hdel : Deleting S h T head d p xs h' visited T')
    (hys : T' head = some ys) (hview : d.view ys = as ++ pos :: bs)
    (hvisited : visited ++ pos :: bs = d.view xs) :
    ∃ h'' T'' ys' as', (if p pos then listDel c h' pos else .ok h') = .ok h'' ∧
      Deleting S h T head d p xs h'' (visited ++ [pos]) T'' ∧ T'' head = some ys' ∧
        d.view ys' = as' ++ bs := by
  obtain ⟨hin, hrep, zs, rest, rfl, hrest, hzs⟩ := hdel
  obtain rfl : zs = ys := Option.some.inj ((set_self ..).symm.trans hys)
  obtain rfl : rest = pos :: bs := List.append_cancel_left (hrest.trans hvisited.symm)
  obtain rfl : as = visited.filter fun a => !p a :=
    List.append_cancel_right (hview.symm.trans hzs)
  have hvisited' : visited ++ [pos] ++ bs = d.view xs := by
    rw [List.append_assoc, List.singleton_append, hvisited]
  by_cases hp : p pos = true
  · obtain ⟨as', bs', rfl, hview'⟩ := d.exists_of_view hview
    obtain ⟨h'', hrun, hin', hrep'⟩ := (Step.del hys).represents (c := c) hrep
    rw [set_set] at hrep'
    have hfilter : (visited ++ [pos]).filter (fun a => !p a) = visited.filter fun a => !p a := by
      simp [hp]
    refine ⟨h'', _, as' ++ bs', _, ?_, ⟨hin.trans hin', hrep', _, bs, rfl, hvisited', ?_⟩,
      set_self .., hview'⟩
    · rw [if_pos hp]
      exact hrun
    · rw [hview', hfilter]
  · have hfilter : (visited ++ [pos]).filter (fun a => !p a) =
        visited.filter (fun a => !p a) ++ [pos] := by simp [hp]
    have hview' : d.view zs = (visited ++ [pos]).filter (fun a => !p a) ++ bs := by
      rw [hview, hfilter, List.append_assoc, List.singleton_append]
    exact ⟨h', _, zs, _, if_neg hp, ⟨hin, hrep, zs, bs, rfl, hvisited', hview'⟩, set_self ..,
          hview'⟩

/-- The safe loops meet every entry once, in order, though their body deletes some of them. -/
theorem forEachSafe_listDel (d : Direction) (p : A → Bool) (hrep : h.Represents S T)
    (hhead : T head = some xs) :
    ∃ h', Returns (forEachSafe d (fun h pos => if p pos then listDel c h pos else .ok h) h head)
        (h', d.view xs) ∧
      h.Within S h' ∧ h'.Represents S (T.set head (xs.filter fun a => !p a)) := by
  obtain ⟨h', T', hrun, hin, hrep', zs, rest, rfl, hrest, hzs⟩ := forEachSafe_rule d
    (I := Deleting S h T head d p xs) (fun _ _ _ hdel => hdel.represents)
    (fun _ _ _ _ _ _ _ hdel hys hview hvisited => hdel.turn (c := c) hys hview hvisited)
    ⟨.refl S h, hrep, xs, d.view xs, (set_eq_self hhead).symm, rfl, rfl⟩ hhead rfl
  obtain rfl : rest = [] := by simpa using hrest
  rw [List.append_nil, d.filter_view] at hzs
  refine ⟨h', hrun, hin, ?_⟩
  rwa [← d.view_view zs, hzs, d.view_view] at hrep'

theorem forEachSafe_listDel_of_two : ∃ h', Returns (forEachSafe .next
      (fun h pos => if pos == 1 then listDel ⟨90, 91, 92⟩ h pos else .ok h) ofTwo 0)
        (h', Direction.next.view [1, 2]) ∧
      ofTwo.Within {0, 1, 2, 3} h' ∧
      h'.Represents {0, 1, 2, 3} (oneTwo.set 0 ([1, 2].filter fun a => !(a == 1))) :=
  forEachSafe_listDel .next (· == 1) ofTwo_full.represents (set_self ..)

/-- What `list_del` leaves in the member that a loop reads. -/
def Direction.poison (c : Constants A) : Direction → A
  | next => c.poison1
  | prev => c.poison2

theorem listDel_poison (hrun : listDel c h e = .ok h') (d : Direction) :
    d.link h' e = .ok (d.poison c) := by
  obtain ⟨h₁, -, hrest⟩ := bind_ok hrun
  have hmapped : h₁.mapped e = true := by
    by_contra hout
    rw [setNext, if_neg hout] at hrest
    cases hrest
  rw [setNext_ok hmapped, ok_bind, setPrev_ok (h := h₁.withNext _ _) hmapped] at hrest
  obtain rfl := Except.ok.inj hrest
  cases d with
  | next =>
    refine (getNext_ok (h := (h₁.withNext _ _).withPrev _ _) hmapped).trans (congrArg Except.ok ?_)
    exact Function.update_self ..
  | prev =>
    refine (getPrev_ok (h := (h₁.withNext _ _).withPrev _ _) hmapped).trans (congrArg Except.ok ?_)
    exact Function.update_self ..

omit [DecidableEq A] in
theorem Direction.exists_cons_of_ne_nil (d : Direction) (hne : xs ≠ []) :
    ∃ x ys, d.view xs = x :: ys := by
  refine List.exists_cons_of_ne_nil fun hnil => hne ?_
  rw [← d.view_view xs, hnil]
  cases d <;> rfl

theorem forEach_nil {body : Heap A → A → Except (WildPointer A) (Heap A)} (hrep : h.Represents S T)
    (hhead : T head = some []) : Returns (forEach d body h head) (h, []) := by
  have hview : d.view ([] : List A) = [] ++ [] := by cases d <;> rfl
  refine (returns_lift (d.link_eq hrep hhead hview)).bind (returns_loop_exit (returns_of_eq ?_))
  simp [forEachTurn]

/-- The other loops run into the poison, unless there is nothing to delete. -/
theorem forEach_listDel (d : Direction) (hrep : h.Represents S T) (hhead : T head = some xs)
    (hpoison : h.mapped (d.poison c) = false) :
    Faults (forEach d (fun h pos => listDel c h pos) h head) ⟨d.poison c⟩ ↔ xs ≠ [] := by
  constructor
  · rintro hfaults rfl
    exact (forEach_nil hrep hhead).not_faults hfaults
  · intro hne
    obtain ⟨pos, bs, hview⟩ := d.exists_cons_of_ne_nil hne
    have hpos := ne_head hrep hhead (d.mem_view.mp (hview ▸ List.mem_cons_self))
    have hfirst := d.link_head hrep hhead
    rw [hview, List.headD_cons] at hfirst
    obtain ⟨as', bs', rfl, -⟩ := d.exists_of_view (show d.view xs = [] ++ pos :: bs from hview)
    obtain ⟨h', hrun, hin, -⟩ := (Step.del hhead).represents (c := c) hrep
    have hlink := listDel_poison hrun d
    have hmapped : h'.mapped (d.poison c) = false := by rw [hin.mapped, hpoison]
    have hout : d.poison c ≠ head := by
      obtain ⟨r, hw, hT⟩ := hrep
      rintro rfl
      exact absurd (hw.mapped _ (hw.within (hT.linked _ _ hhead))) (by simp [hpoison])
    have hstop : listDel c h' (d.poison c) = .error ⟨d.poison c⟩ := by
      rw [listDel, listDelEntry, getPrev, if_neg (by simp [hmapped])]
      rfl
    -- the first turn deletes `pos` and reads the poison, the second one deletes the poison
    refine (returns_lift hfirst).bind_faults (faults_loop_next (returns_of_eq ?_) (faults_loop
      (s := (h', d.poison c, [pos])) ?_))
    · simp only [Op.run] at hrun
      simp [forEachTurn, hpos, hrun, hlink]
    · refine ⟨0, fun n _ => ?_⟩
      simp [forEachTurn, hout, hstop]
      rfl

theorem forEach_listDel_of_two :
    Faults (forEach .next (fun h pos => listDel ⟨90, 91, 92⟩ h pos) ofTwo 0) ⟨91⟩ ↔
      [1, 2] ≠ [] :=
  forEach_listDel .next ofTwo_full.represents (set_self ..) rfl

/-- Where the entries are initialised as they are deleted, the other loops stay at the first of
them. -/
theorem forEach_listDelInit (d : Direction) (hrep : h.Represents S T) (hhead : T head = some xs) :
    Diverges (forEach d (fun h pos => listDelInit h pos) h head) ↔ xs ≠ [] := by
  constructor
  · rintro hdiverges rfl
    exact (forEach_nil hrep hhead).not_diverges hdiverges
  · intro hne
    obtain ⟨pos, bs, hview⟩ := d.exists_cons_of_ne_nil hne
    have hmem : pos ∈ xs := d.mem_view.mp (hview ▸ List.mem_cons_self)
    have hpos := ne_head hrep hhead hmem
    have hfirst := d.link_head hrep hhead
    rw [hview, List.headD_cons] at hfirst
    obtain ⟨r, hw, hT⟩ := hrep
    rw [forEach, hfirst, Prog.liftM_eq_lift, Prog.lift_ok, Prog.pure_bind]
    -- from the first turn on `pos` is a ring of its own, which the loop does not leave
    refine diverges_loop (fun st => st.2.1 = pos ∧ ∃ r, st.1.Wired S r ∧ pos ∈ r.linked) ?_
      ⟨rfl, r, hw, hT.entry_linked hhead (List.mem_cons_of_mem _ hmem)⟩
    rintro ⟨h₁, pos', visited⟩ ⟨hsame, r₁, hw₁, hlinked⟩
    obtain rfl : pos' = pos := hsame
    obtain ⟨h₂, hrun, -, hw₂⟩ := listDelInit_leads hw₁ hlinked
    have hlinked₂ := Finset.mem_insert_self pos' r₁.linked
    have hself : (r₁.isolate pos').next pos' = pos' := isolate_self _ _
    have hlink : d.link h₂ pos' = .ok pos' := by
      cases d with
      | next => exact (hw₂.getNext hlinked₂).trans (congrArg Except.ok hself)
      | prev =>
        have hback : (r₁.isolate pos').next⁻¹ pos' = pos' := Equiv.Perm.inv_eq_iff_eq.mpr hself.symm
        exact (hw₂.getPrev hlinked₂).trans (congrArg Except.ok hback)
    refine ⟨(h₂, pos', visited ++ [pos']), ⟨rfl, _, hw₂, hlinked₂⟩, fun n => ?_⟩
    simp [forEachTurn, hpos, hrun, hlink, Prog.pure_apply]

theorem forEach_listDelInit_of_two :
    Diverges (forEach .prev (fun h pos => listDelInit h pos) ofTwo 0) ↔ [1, 2] ≠ [] :=
  forEach_listDelInit .prev ofTwo_full.represents (set_self ..)

structure Draining (S : Finset A) (h : Heap A) (T : Lists A) (list head : A) (xs ys : List A)
    (h' : Heap A) (visited : List A) (T' : Lists A) : Prop where
  within : h.Within S h'
  full : h'.Full S T'
  contents : ∃ rest, ys = visited ++ rest ∧ T' = (T.set list rest).set head (xs ++ visited)

theorem Draining.turn {pos : A} {zs : List A} (hne : list ≠ head)
    (hdrain : Draining S h T list head xs ys h' visited T') (hzs : T' list = some zs)
    (hview : zs = as ++ pos :: bs) (hvisited : visited ++ pos :: bs = ys) :
    ∃ h'' T'' ys' as', listMoveTail h' pos head = .ok h'' ∧
      Draining S h T list head xs ys h'' (visited ++ [pos]) T'' ∧ T'' list = some ys' ∧
        ys' = as' ++ bs := by
  obtain ⟨hin, hfull, rest, rfl, rfl⟩ := hdrain
  obtain rfl : rest = zs := by
    rw [set_of_ne hne, set_self] at hzs
    exact Option.some.inj hzs
  obtain rfl : pos :: bs = rest := List.append_cancel_left hvisited
  obtain rfl : as = [] := List.self_eq_append_left.mp hview
  have hstep : Step S ((T.set list (pos :: bs)).set head (xs ++ visited)) (.moveTail pos head) _ :=
    .moveTail (hzs.trans (congrArg some hview)) ((set_of_ne hne.symm).trans (set_self ..))
  obtain ⟨h'', hrun, hin', hfull'⟩ := run_full (c := ⟨head, head, head⟩)
    (.cons hstep (.nil _)) (by simp [Op.Initialises]) hfull
  have hset : (((T.set list (pos :: bs)).set head (xs ++ visited)).set list ([] ++ bs)).set head
      (xs ++ visited ++ [pos]) = (T.set list bs).set head (xs ++ (visited ++ [pos])) := by
    rw [set_comm _ hne.symm, set_set, set_set, List.append_assoc, List.nil_append]
  rw [hset] at hfull'
  refine ⟨h'', _, bs, [], ?_, ⟨hin.trans hin', hfull', bs, by simp, rfl⟩, ?_, rfl⟩
  · simpa [run, Op.run] using hrun
  · exact (set_of_ne hne).trans (set_self ..)

/-- A loop that moves the entries to another list, one by one, does what `list_splice_tail_init`
does. -/
theorem forEachSafe_listMoveTail (hfull : h.Full S T) (hlist : T list = some ys)
    (hhead : T head = some xs) (hne : list ≠ head) :
    ∃ h', Returns (listForEachSafe (fun h pos => listMoveTail h pos head) h list) (h', ys) ∧
      listSpliceTailInit h list head = .ok h' := by
  obtain ⟨h', T', hrun, hin, hfull', rest, hrest, rfl⟩ := forEachSafe_rule .next
    (I := Draining S h T list head xs ys)
    (fun _ _ _ hdrain => hdrain.full.represents)
    (fun _ _ _ _ _ _ _ hdrain hys hview hvisited => hdrain.turn hne hys hview hvisited)
    ⟨.refl S h, hfull, ys, rfl, by
      rw [set_eq_self hlist, List.append_nil, set_eq_self hhead]⟩ hlist rfl
  obtain rfl : rest = [] := by simpa using hrest
  obtain ⟨h'', hsplice, hin', hfull''⟩ := run_full (c := ⟨head, head, head⟩)
    (.cons (.spliceTailInit hne hlist hhead) (.nil _)) (by simp [Op.Initialises]) hfull
  obtain rfl := hfull'.unique hfull'' hin hin'
  refine ⟨h', hrun, ?_⟩
  simpa [run, Op.run] using hsplice

theorem forEachSafe_listMoveTail_of_two : ∃ h',
    Returns (listForEachSafe (fun h pos => listMoveTail h pos 3) ofTwo 0) (h', [1, 2]) ∧
      listSpliceTailInit ofTwo 0 3 = .ok h' :=
  forEachSafe_listMoveTail (S := {0, 1, 2, 3}) (T := oneTwo.set 3 [])
    (ofTwo_full.track ⟨by decide, by simp [oneTwo, Lists.has_nil_set]⟩) rfl (set_self ..)
    (by decide)

end Deletion

end GoodCommand.KernelList
