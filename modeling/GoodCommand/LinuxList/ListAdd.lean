import GoodCommand.Library.Except
import GoodCommand.Library.LinkedRing
import GoodCommand.LinuxList.Defs

/-! `list_add` keeps the nodes linked to a ring, and the walks visit all of them. -/

namespace GoodCommand.LinuxList
open Fuel

variable {A : Type} {h h' : Heap A} {head : A} {as : List A}

def nextOf (h : Heap A) (a : A) : Option A := (h a).map fun n => n.list.next

def prevOf (h : Heap A) (a : A) : Option A := (h a).map fun n => n.list.prev

def valueOf (h : Heap A) (a : A) : Option ℤ := (h a).map Node.value

structure Relinked (h h' : Heap A) (next prev : A → Option A) : Prop where
  next : nextOf h' = next
  prev : prevOf h' = prev
  value : valueOf h' = valueOf h

theorem node_some {p : A} {n : Node A} (hp : h p = some n) : node h p = .ok n := by
  simp only [node, hp]

theorem exists_node {p : A} (hp : valueOf h p ≠ none) : ∃ n, h p = some n := by
  cases hn : h p with
  | none => simp [valueOf, hn] at hp
  | some n => exact ⟨n, rfl⟩

theorem append_head_ne_nil (as : List A) (head : A) : as ++ [head] ≠ [] := by simp

variable [DecidableEq A]

theorem map_update {β : Type} (f : Node A → β) (h : Heap A) (p : A) (n : Node A) :
    (fun a => (Function.update h p (some n) a).map f) =
      Function.update (fun a => (h a).map f) p (some (f n)) := by
  funext a
  by_cases ha : a = p
  · subst ha
    simp
  · simp [ha]

theorem map_update_same {β : Type} (f : Node A → β) {p : A} {n m : Node A} (hp : h p = some n)
    (hf : f m = f n) :
    (fun a => (Function.update h p (some m) a).map f) = fun a => (h a).map f := by
  rw [map_update, Function.update_eq_self_iff, hp, hf]
  rfl

theorem exists_setNext {p : A} (hp : valueOf h p ≠ none) (q : A) :
    ∃ h', setNext h p q = .ok h' ∧
      Relinked h h' (Function.update (nextOf h) p (some q)) (prevOf h) := by
  obtain ⟨n, hn⟩ := exists_node hp
  refine ⟨_, by rw [setNext, node_some hn, ok_bind]; rfl, ?_, ?_, ?_⟩
  · exact map_update (fun n => n.list.next) h p _
  · exact map_update_same (fun n => n.list.prev) hn rfl
  · exact map_update_same Node.value hn rfl

theorem exists_setPrev {p : A} (hp : valueOf h p ≠ none) (q : A) :
    ∃ h', setPrev h p q = .ok h' ∧
      Relinked h h' (nextOf h) (Function.update (prevOf h) p (some q)) := by
  obtain ⟨n, hn⟩ := exists_node hp
  refine ⟨_, by rw [setPrev, node_some hn, ok_bind]; rfl, ?_, ?_, ?_⟩
  · exact map_update_same (fun n => n.list.next) hn rfl
  · exact map_update (fun n => n.list.prev) h p _
  · exact map_update_same Node.value hn rfl

/-! ### Adding nodes -/

theorem exists_initListHead (hhead : valueOf h head ≠ none) :
    ∃ h', initListHead h head = .ok h' ∧ valueOf h' = valueOf h ∧
      LinkedRing (nextOf h') (prevOf h') head [] := by
  obtain ⟨h₁, hrun₁, hlinks₁⟩ := exists_setNext hhead head
  obtain ⟨h₂, hrun₂, hlinks₂⟩ := exists_setPrev (hlinks₁.value ▸ hhead) head
  refine ⟨h₂, by rw [initListHead, hrun₁, ok_bind, hrun₂], hlinks₂.value.trans hlinks₁.value,
    by simp, ?_⟩
  rw [hlinks₂.next, hlinks₂.prev, hlinks₁.next]
  exact .cons_cons ⟨Function.update_self .., Function.update_self ..⟩ (.singleton _)

theorem exists_listAdd {new p b : A} (hnew : valueOf h new ≠ none) (hp : nextOf h p = some b)
    (hb : valueOf h b ≠ none) :
    ∃ h', listAdd h new p = .ok h' ∧
      Relinked h h' (Function.update (Function.update (nextOf h) new (some b)) p (some new))
        (Function.update (Function.update (prevOf h) b (some new)) new (some p)) := by
  obtain ⟨n, hn, rfl⟩ := Option.map_eq_some_iff.mp hp
  have hpv : valueOf h p ≠ none := by simp [valueOf, hn]
  obtain ⟨h₁, hrun₁, hlinks₁⟩ := exists_setPrev hb new
  obtain ⟨h₂, hrun₂, hlinks₂⟩ := exists_setNext (hlinks₁.value ▸ hnew) n.list.next
  have hvalue₂ := hlinks₂.value.trans hlinks₁.value
  obtain ⟨h₃, hrun₃, hlinks₃⟩ := exists_setPrev (hvalue₂ ▸ hnew) p
  have hvalue₃ := hlinks₃.value.trans hvalue₂
  obtain ⟨h₄, hrun₄, hlinks₄⟩ := exists_setNext (hvalue₃ ▸ hpv) new
  refine ⟨h₄, ?_, ?_, ?_, hlinks₄.value.trans hvalue₃⟩
  · simp only [listAdd, node_some hn, listAddBetween, hrun₁, hrun₂, hrun₃, hrun₄, ok_bind]
  · rw [hlinks₄.next, hlinks₃.next, hlinks₂.next, hlinks₁.next]
  · rw [hlinks₄.prev, hlinks₃.prev, hlinks₂.prev, hlinks₁.prev]

structure AddCall (A : Type) where
  new : A
  head : A

def addAll (h : Heap A) (ops : List (AddCall A)) : Except WildPointer (Heap A) :=
  ops.foldlM (fun h op => listAdd h op.new op.head) h

/-- Every call adds a node of the heap that is not in the ring behind one that is. -/
def Valid (h : Heap A) : List A → List (AddCall A) → Prop
  | _, [] => True
  | ring, op :: ops => valueOf h op.new ≠ none ∧ op.new ∉ ring ∧ op.head ∈ ring ∧
    Valid h (insertAfter op.head op.new ring) ops

/-- The order of the ring after the calls `ops`. -/
def order (ring : List A) (ops : List (AddCall A)) : List A :=
  ops.foldl (fun ring op => insertAfter op.head op.new ring) ring

theorem valid_congr (hvalue : valueOf h' = valueOf h) {ring : List A} {ops : List (AddCall A)} :
    Valid h' ring ops ↔ Valid h ring ops := by
  induction ops generalizing ring with
  | nil => exact Iff.rfl
  | cons op ops ih => rw [Valid, Valid, hvalue, ih]

theorem ring_listAdd (hring : LinkedRing (nextOf h) (prevOf h) head as) {op : AddCall A}
    (hnew : valueOf h op.new ≠ none) (hfresh : op.new ∉ head :: as) (hmem : op.head ∈ head :: as) :
    ∃ h' as', listAdd h op.new op.head = .ok h' ∧ valueOf h' = valueOf h ∧
      insertAfter op.head op.new (head :: as) = head :: as' ∧ as'.Perm (op.new :: as) ∧
      LinkedRing (nextOf h') (prevOf h') head as' := by
  obtain ⟨b, -, hb, hback⟩ := hring.exists_next hmem
  have hbv : valueOf h b ≠ none := by
    obtain ⟨n, hn, -⟩ := Option.map_eq_some_iff.mp hback
    simp [valueOf, hn]
  obtain ⟨h', hrun, hlinks⟩ := exists_listAdd hnew hb hbv
  obtain ⟨as', hins, hperm, hring'⟩ := hring.insert hmem hfresh hb
  rw [← hlinks.next, ← hlinks.prev] at hring'
  exact ⟨h', as', hrun, hlinks.value, hins, hperm, hring'⟩

theorem ring_addAll {ops : List (AddCall A)} (hring : LinkedRing (nextOf h) (prevOf h) head as)
    (hvalid : Valid h (head :: as) ops) :
    ∃ h' as', addAll h ops = .ok h' ∧ valueOf h' = valueOf h ∧
      order (head :: as) ops = head :: as' ∧ as'.Perm (ops.map AddCall.new ++ as) ∧
      LinkedRing (nextOf h') (prevOf h') head as' := by
  induction ops generalizing h as with
  | nil => exact ⟨h, as, rfl, rfl, rfl, .refl _, hring⟩
  | cons op ops ih =>
    obtain ⟨hnew, hfresh, hmem, hrest⟩ := hvalid
    obtain ⟨h₁, as₁, hrun, hvalue, hins, hperm, hring₁⟩ := ring_listAdd hring hnew hfresh hmem
    rw [hins, ← valid_congr hvalue] at hrest
    obtain ⟨h', as', hruns, hvalue', horder, hperm', hring'⟩ := ih hring₁ hrest
    refine ⟨h', as', ?_, hvalue'.trans hvalue, ?_, ?_, hring'⟩
    · rw [LinuxList.addAll, List.foldlM_cons, hrun, ok_bind]
      exact hruns
    · rw [order, List.foldl_cons, hins]
      exact horder
    · refine hperm'.trans ((hperm.append_left _).trans ?_)
      exact List.perm_middle

theorem order_head {ops : List (AddCall A)} (hops : ∀ op ∈ ops, op.head = head) (as : List A) :
    order (head :: as) ops = head :: ((ops.map AddCall.new).reverse ++ as) := by
  induction ops generalizing as with
  | nil => rfl
  | cons op ops ih =>
    have hop := hops op List.mem_cons_self
    have hfirst : insertAfter op.head op.new (head :: as) = head :: op.new :: as := by
      rw [insertAfter, if_pos hop.symm]
    rw [order, List.foldl_cons, hfirst]
    refine (ih (fun op' h => hops op' (List.mem_cons_of_mem _ h)) (op.new :: as)).trans ?_
    simp

theorem next_of_last {ops : List (AddCall A)} {op : AddCall A}
    (h₀ : addAll h (ops ++ [op]) = .ok h') :
    nextOf h' op.head = some op.new := by
  rw [addAll, List.foldlM_append] at h₀
  obtain ⟨h₁, -, hlast⟩ := bind_ok h₀
  obtain ⟨h₂, hrun, hend⟩ := foldlM_cons_ok hlast
  cases hend
  obtain ⟨n, -, hrun⟩ := bind_ok hrun
  obtain ⟨h₃, -, hrun⟩ := bind_ok hrun
  obtain ⟨h₄, -, hrun⟩ := bind_ok hrun
  obtain ⟨h₅, -, hrun⟩ := bind_ok hrun
  obtain ⟨m, -, hrun⟩ := bind_ok hrun
  cases hrun
  -- the last of the four writes is `prev->next = new`
  simp [nextOf]

/-! ### Walks -/

structure Visits (h : Heap A) (as : List A) (out : List (A × ℤ)) : Prop where
  nodes : out.map Prod.fst = as
  values : ∀ p ∈ out, valueOf h p.1 = some p.2

theorem returns_walk {link : ListHead A → A} (hnd : head ∉ as)
    (hlinked : (head :: (as ++ [head])).IsChain fun a b =>
      (h a).map (fun n => link n.list) = some b) :
    ∃ out, Returns (walk link h head) out ∧ Visits h as out := by
  have hloop : ∀ suf p rest acc, suf ++ [head] = p :: rest → head ∉ suf →
      (suf ++ [head]).IsChain (fun a b => (h a).map (fun n => link n.list) = some b) →
      ∃ out, Returns (loop (walkBody link h head) (p, acc)) (acc ++ out) ∧ Visits h suf out := by
    intro suf
    induction suf with
    | nil =>
      intro p rest acc hsuf _ _
      obtain rfl : head = p := (List.cons.inj hsuf).1
      exact ⟨[], returns_loop_exit (returns_of_eq (by simp [walkBody])), rfl, by simp⟩
    | cons c cs ih =>
      intro p rest acc hsuf hnot hchain
      obtain rfl : c = p := (List.cons.inj hsuf).1
      obtain ⟨hne, hcs⟩ := List.ne_and_not_mem_of_not_mem_cons hnot
      obtain ⟨q, rest', hq⟩ := List.exists_cons_of_ne_nil (append_head_ne_nil cs head)
      rw [List.cons_append, hq, List.isChain_cons_cons, ← hq] at hchain
      obtain ⟨n, hn, rfl⟩ := Option.map_eq_some_iff.mp hchain.1
      obtain ⟨out, hout, hvisits⟩ := ih _ rest' (acc ++ [(c, n.value)]) hq hcs hchain.2
      refine ⟨(c, n.value) :: out, returns_loop_next (returns_of_eq ?_) (by simpa using hout),
        ?_, ?_⟩
      · simp [walkBody, hne.symm, node_some hn]
      · simp [hvisits.nodes]
      · intro p hp
        rcases List.mem_cons.mp hp with rfl | hp
        · simp [valueOf, hn]
        · exact hvisits.values p hp
  obtain ⟨q, rest, hq⟩ := List.exists_cons_of_ne_nil (append_head_ne_nil as head)
  rw [hq, List.isChain_cons_cons, ← hq] at hlinked
  obtain ⟨n, hn, rfl⟩ := Option.map_eq_some_iff.mp hlinked.1
  obtain ⟨out, hout, hvisits⟩ := hloop as _ rest [] hq hnd hlinked.2
  refine ⟨out, ?_, hvisits⟩
  rw [walk, node_some hn]
  exact hout

theorem returns_forward (hring : LinkedRing (nextOf h) (prevOf h) head as) :
    ∃ out, Returns (walk ListHead.next h head) out ∧ Visits h as out :=
  returns_walk (List.nodup_cons.mp hring.nodup).1 (hring.linked.imp fun _ _ hab => hab.1)

theorem returns_backward (hring : LinkedRing (nextOf h) (prevOf h) head as) :
    ∃ out, Returns (walk ListHead.prev h head) out ∧ Visits h as.reverse out :=
  returns_walk (List.nodup_cons.mp hring.reverse.nodup).1
    (hring.reverse.linked.imp fun _ _ hab => hab.1)

/-! ### The list -/

/-- Whatever nodes `list_add` is called with, the list is a ring of the nodes that were added, each
behind the one that it was added behind, and the walks visit them in this order, or backwards. -/
theorem listAdd_keeps_ring {ops : List (AddCall A)} (hhead : valueOf h head ≠ none)
    (hvalid : Valid h [head] ops) :
    ∃ h₀ h' as, initListHead h head = .ok h₀ ∧ addAll h₀ ops = .ok h' ∧
      order [head] ops = head :: as ∧ as.Perm (ops.map AddCall.new) ∧ as.Nodup ∧
      ((∀ op ∈ ops, op.head = head) → as = (ops.map AddCall.new).reverse) ∧
      (∀ ops' op, ops = ops' ++ [op] → nextOf h' op.head = some op.new) ∧
      (∀ a ∈ head :: as, ∃ b ∈ head :: as, nextOf h' a = some b ∧ prevOf h' b = some a) ∧
      (∀ a ∈ head :: as, ∃ b ∈ head :: as, prevOf h' a = some b ∧ nextOf h' b = some a) ∧
      (∃ out, Visits h' as out ∧ Returns (walkList h' head) out ∧
        Returns (walkListListEntry h' head) out ∧ Returns (walkListForEach h' head) out) ∧
      ∃ out, Visits h' as.reverse out ∧ Returns (walk ListHead.prev h' head) out := by
  obtain ⟨h₀, hinit, hvalue₀, hring₀⟩ := exists_initListHead hhead
  obtain ⟨h', as, hrun, -, horder, hperm, hring⟩ :=
    ring_addAll hring₀ ((valid_congr hvalue₀).mpr hvalid)
  obtain ⟨out, hforward, hvisits⟩ := returns_forward hring
  obtain ⟨back, hbackward, hvisits'⟩ := returns_backward hring
  rw [List.append_nil] at hperm
  refine ⟨h₀, h', as, hinit, hrun, horder, hperm, (List.nodup_cons.mp hring.nodup).2,
    fun hops => ?_, ?_, fun a ha => hring.exists_next ha, fun a ha => hring.exists_prev ha,
    ⟨out, hvisits, hforward, hforward, hforward⟩, back, hvisits', hbackward⟩
  · have hreverse := order_head hops []
    rw [horder, List.append_nil] at hreverse
    exact (List.cons.inj hreverse).2
  · rintro ops' op rfl
    exact next_of_last hrun

def sampleCalls : List (AddCall ℕ) := [⟨1, 0⟩, ⟨2, 0⟩, ⟨3, 1⟩]

def sampleHeap : Heap ℕ := fun a => if a < 4 then some ⟨a, 9, 9⟩ else none

theorem listAdd_keeps_ring_sample :
    ∃ h₀ h' as, initListHead sampleHeap 0 = .ok h₀ ∧ addAll h₀ sampleCalls = .ok h' ∧
      order [0] sampleCalls = 0 :: as ∧ as.Perm (sampleCalls.map AddCall.new) ∧ as.Nodup ∧
      ((∀ op ∈ sampleCalls, op.head = 0) → as = (sampleCalls.map AddCall.new).reverse) ∧
      (∀ ops' op, sampleCalls = ops' ++ [op] → nextOf h' op.head = some op.new) ∧
      (∀ a ∈ 0 :: as, ∃ b ∈ 0 :: as, nextOf h' a = some b ∧ prevOf h' b = some a) ∧
      (∀ a ∈ 0 :: as, ∃ b ∈ 0 :: as, prevOf h' a = some b ∧ nextOf h' b = some a) ∧
      (∃ out, Visits h' as out ∧ Returns (walkList h' 0) out ∧
        Returns (walkListListEntry h' 0) out ∧ Returns (walkListForEach h' 0) out) ∧
      ∃ out, Visits h' as.reverse out ∧ Returns (walk ListHead.prev h' 0) out :=
  listAdd_keeps_ring (by simp [valueOf, sampleHeap])
    (by simp [Valid, valueOf, sampleHeap, sampleCalls, insertAfter])

end GoodCommand.LinuxList
