import GoodCommand.ListNode.Defs

/-! `do_revert` reverses the chain behind its first argument in place. -/

namespace GoodCommand.ListNode
open Fuel

variable {A : Type}

def link (h : Heap A) (a : A) : Option (Option A) := (h a).map Node.next

theorem link_some {h : Heap A} {a : A} {q : Option A} (hlink : link h a = some q) :
    ∃ v, h a = some ⟨v, q⟩ := by
  obtain ⟨⟨v, r⟩, ha, rfl⟩ := Option.map_eq_some_iff.mp hlink
  exact ⟨v, ha⟩

structure Relinked (as : List A) (h h' : Heap A) : Prop where
  frame : ∀ a, a ∉ as → h' a = h a
  vals : ∀ a, (h' a).map Node.val = (h a).map Node.val

theorem Relinked.refl (as : List A) (h : Heap A) : Relinked as h h :=
  ⟨fun _ _ => rfl, fun _ => rfl⟩

theorem Relinked.trans {as : List A} {h h' h'' : Heap A} (h1 : Relinked as h h')
    (h2 : Relinked as h' h'') : Relinked as h h'' :=
  ⟨fun a ha => (h2.frame a ha).trans (h1.frame a ha), fun a => (h2.vals a).trans (h1.vals a)⟩

theorem Relinked.mono {as bs : List A} {h h' : Heap A} (hr : Relinked as h h') (hsub : as ⊆ bs) :
    Relinked bs h h' :=
  ⟨fun a ha => hr.frame a fun hmem => ha (hsub hmem), hr.vals⟩

theorem Relinked.link_eq {as : List A} {h h' : Heap A} (hr : Relinked as h h') {a : A}
    (ha : a ∉ as) : link h' a = link h a := by rw [link, link, hr.frame a ha]

theorem node_some {h : Heap A} {a : A} {n : Node A} (ha : h a = some n) :
    node h (some a) = .ok n := by
  simp only [node, ha]

variable [DecidableEq A]

theorem setNext_some {h : Heap A} {a : A} {n : Node A} (ha : h a = some n) (q : Option A) :
    setNext h (some a) q = .ok (Function.update h a (some ⟨n.val, q⟩)) := by
  simp only [setNext, ha]

theorem removenode_insert {h : Heap A} {head pre x : A} {v w u : CInt} {p q : Option A}
    (hhead : h head = some ⟨v, p⟩) (hpre : h pre = some ⟨w, some x⟩) (hx : h x = some ⟨u, q⟩)
    (hne : head ≠ pre) (hne' : head ≠ x) (hne'' : pre ≠ x) :
    ∃ h₁ h₂, removenode h (some pre) (some x) = .ok h₁ ∧ insert h₁ (some head) (some x) = .ok h₂ ∧
      link h₂ x = link h head ∧ link h₂ head = some (some x) ∧ link h₂ pre = link h x ∧
      Relinked [head, pre, x] h h₂ := by
  have hx' : Function.update h pre (some ⟨w, q⟩) x = some ⟨u, q⟩ := by
    rw [Function.update_of_ne hne''.symm, hx]
  have hremove : removenode h (some pre) (some x) = .ok
      (Function.update (Function.update h pre (some ⟨w, q⟩)) x (some ⟨u, none⟩)) := by
    simp only [removenode, node_some hpre, node_some hx, setNext_some hpre, setNext_some hx', bind,
      Except.bind, if_true]
  have hhead' : ∀ n, Function.update (Function.update h pre (some ⟨w, q⟩)) x n head =
      some ⟨v, p⟩ := by
    intro n
    rw [Function.update_of_ne hne', Function.update_of_ne hne, hhead]
  have hinsert : insert (Function.update (Function.update h pre (some ⟨w, q⟩)) x (some ⟨u, none⟩))
      (some head) (some x) = .ok (Function.update (Function.update
        (Function.update h pre (some ⟨w, q⟩)) x (some ⟨u, p⟩)) head (some ⟨v, some x⟩)) := by
    simp only [insert, node_some (hhead' _), bind, Except.bind]
    rw [setNext_some (Function.update_self ..), Function.update_idem]
    exact setNext_some (hhead' _) _
  refine ⟨_, _, hremove, hinsert, ?_, ?_, ?_, ⟨fun a ha => ?_, fun a => ?_⟩⟩
  · simp [link, hhead, hne'.symm]
  · simp [link]
  · simp [link, hx, hne.symm, hne'']
  · simp only [List.mem_cons, List.not_mem_nil, or_false, not_or] at ha
    rw [Function.update_of_ne ha.1, Function.update_of_ne ha.2.2, Function.update_of_ne ha.2.1]
  · simp only [Function.update_apply]
    split_ifs <;> simp_all

theorem revertBody_spec {head pre x : A} {ds xs : List A} {tail : Option A} {h : Heap A}
    (hc : Chain (link h) (some head) (head :: ds ++ pre :: x :: xs) tail)
    (hnd : (head :: ds ++ pre :: x :: xs).Nodup)
    (htail : ∀ t ∈ tail, t ∉ head :: ds ++ pre :: x :: xs) :
    ∃ q h', Returns (revertBody (some head) tail (some pre) (some x, h)) (.next (q, h')) ∧
      link h' pre = some q ∧ Chain (link h') (some head) (head :: (x :: ds) ++ pre :: xs) tail ∧
      Relinked (head :: ds ++ pre :: x :: xs) h h' := by
  obtain ⟨-, r, hr, -⟩ := Chain.cons_iff.mp hc
  obtain ⟨-, -, -, _, hp, rfl, q, hq, -⟩ := Chain.append_iff.mp hc
  obtain ⟨v, hv⟩ := link_some hr
  obtain ⟨w, hw⟩ := link_some hp
  obtain ⟨u, hu⟩ := link_some hq
  have hnd' := hnd
  simp only [List.cons_append, List.nodup_cons, List.nodup_append, List.mem_append,
    List.mem_cons, not_or, ne_eq] at hnd'
  obtain ⟨⟨hhd, hhp, hhx, hhxs⟩, -, ⟨⟨hpx, hpxs⟩, hxxs, -⟩, hdisj⟩ := hnd'
  obtain ⟨h₁, h₂, hremove, hinsert, hx₂, hhead₂, hpre₂, hr₂⟩ :=
    removenode_insert hv hw hu hhp hhx hpx
  have hds : ∀ a ∈ ds, a ∉ [head, pre, x] := by
    intro a ha
    simp only [List.mem_cons, List.not_mem_nil, or_false, not_or]
    exact ⟨fun heq => hhd (heq ▸ ha), hdisj a ha pre (.inl rfl), hdisj a ha x (.inr (.inl rfl))⟩
  have hxs : ∀ a ∈ xs, a ∉ [head, pre, x] := by
    intro a ha
    simp only [List.mem_cons, List.not_mem_nil, or_false, not_or]
    exact ⟨fun heq => hhxs (heq ▸ ha), fun heq => hpxs (heq ▸ ha), fun heq => hxxs (heq ▸ ha)⟩
  refine ⟨q, h₂, ?_, hpre₂.trans hq, ?_, hr₂.mono (by simp)⟩
  · have hne : some x ≠ tail := fun heq => htail x (by simp [← heq]) (by simp)
    simp only [revertBody, ne_eq, hne, not_false_eq_true, if_true, node_some hu, hremove, hinsert,
      Prog.liftM_eq_lift, Prog.lift_ok, Prog.pure_bind]
    exact returns_pure _
  · exact hc.move hx₂ hhead₂ hpre₂ (fun a ha => hr₂.link_eq (hds a ha))
      fun a ha => hr₂.link_eq (hxs a ha)

theorem revert_run {head pre : A} {ds xs : List A} {p tail : Option A} {h : Heap A}
    (hc : Chain (link h) (some head) (head :: ds ++ pre :: xs) tail)
    (hp : link h pre = some p) (hnd : (head :: ds ++ pre :: xs).Nodup)
    (htail : ∀ t ∈ tail, t ∉ head :: ds ++ pre :: xs) :
    ∃ h', Returns (loop (revertBody (some head) tail (some pre)) (p, h)) h' ∧
      Chain (link h') (some head) (head :: (xs.reverse ++ ds ++ [pre])) tail ∧
      Relinked (head :: ds ++ pre :: xs) h h' := by
  induction xs generalizing ds p h with
  | nil =>
    obtain rfl : p = tail := hc.behind hp
    refine ⟨h, returns_loop_exit ?_, by simpa using hc, .refl _ _⟩
    simp only [revertBody, ne_eq, not_true, if_false]
    exact returns_pure _
  | cons x xs ih =>
    obtain ⟨rfl, -⟩ := hc.behind hp
    obtain ⟨q, h₂, hbody, hp₂, hc₂, hr₂⟩ := revertBody_spec hc hnd htail
    have hperm : (head :: ds ++ pre :: x :: xs).Perm (head :: (x :: ds) ++ pre :: xs) := by
      simpa using @List.perm_middle _ x (ds ++ [pre]) xs
    obtain ⟨h', hrun, hchain, hrel⟩ := ih hc₂ hp₂ (hperm.nodup hnd)
      (fun t ht hmem => htail t ht (hperm.symm.subset hmem))
    exact ⟨h', returns_loop_next hbody hrun, by simpa using hchain,
      hr₂.trans (hrel.mono hperm.symm.subset)⟩

theorem doRevert_spec {h : Heap A} {head : A} {as : List A} {tail : Option A} (has : as ≠ [])
    (hc : Chain (link h) (some head) (head :: as) tail) (hnd : (head :: as).Nodup)
    (htail : ∀ t ∈ tail, t ∉ head :: as) :
    ∃ h', Returns (doRevert h (some head) tail) h' ∧
      Chain (link h') (some head) (head :: as.reverse) tail ∧ Relinked (head :: as) h h' := by
  obtain ⟨pre, xs, rfl⟩ := List.exists_cons_of_ne_nil has
  obtain ⟨-, _, hhead, rfl, p, hp, -⟩ := Chain.cons_iff.mp hc
  obtain ⟨v, hv⟩ := link_some hhead
  obtain ⟨w, hw⟩ := link_some hp
  obtain ⟨h', hrun, hchain, hrel⟩ := @revert_run _ _ head pre [] xs p tail h hc hp hnd htail
  refine ⟨h', ?_, by simpa using hchain, hrel⟩
  simp only [doRevert, node_some hv, node_some hw, Prog.liftM_eq_lift, Prog.lift_ok,
    Prog.pure_bind]
  exact hrun

/-- `do_revert` turns the chain `head -> a1 -> ... -> an -> tail` into
`head -> an -> ... -> a1 -> tail`. -/
theorem doRevert_reverses {h : Heap A} {head : A} {as : List A} {tail : Option A} (has : as ≠ [])
    (hc : Chain (link h) (some head) (head :: as) tail) (hnd : (head :: as).Nodup)
    (htail : ∀ t ∈ tail, t ∉ head :: as) :
    ∃ h', Returns (doRevert h (some head) tail) h' ∧
      Chain (link h') (some head) (head :: as.reverse) tail ∧
      (∀ a, a ∉ head :: as → h' a = h a) ∧
      ∀ a, (h' a).map Node.val = (h a).map Node.val := by
  obtain ⟨h', hrun, hchain, hrel⟩ := doRevert_spec has hc hnd htail
  exact ⟨h', hrun, hchain, hrel.frame, hrel.vals⟩

def threeNodes : Heap ℕ
  | 0 => some ⟨CInt.wrap 5, some 1⟩
  | 1 => some ⟨CInt.wrap 6, some 2⟩
  | 2 => some ⟨CInt.wrap 7, none⟩
  | _ => none

theorem threeNodes_chain : Chain (link threeNodes) (some 0) [0, 1, 2] none :=
  ⟨rfl, _, rfl, rfl, _, rfl, rfl, _, rfl, rfl⟩

theorem doRevert_reverses_sample :
    ∃ h', Returns (doRevert threeNodes (some 0) none) h' ∧
      Chain (link h') (some 0) (0 :: [1, 2].reverse) none ∧
      (∀ a, a ∉ [0, 1, 2] → h' a = threeNodes a) ∧
      ∀ a, (h' a).map Node.val = (threeNodes a).map Node.val :=
  doRevert_reverses (by decide) threeNodes_chain (by decide) (fun _ ht => nomatch ht)

end GoodCommand.ListNode
