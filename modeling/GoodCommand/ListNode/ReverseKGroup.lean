import GoodCommand.ListNode.DoRevert

/-! `reverseKGroup` on a list of any length and for any group size. -/

namespace GoodCommand.ListNode
open Fuel

variable {A : Type}

/-- `as` is cut into `blocks` of `k` nodes and the `rest`, which does not fill a block. -/
structure Groups (k : ℕ) (as : List A) (blocks : List (List A)) (rest : List A) : Prop where
  split : as = blocks.flatten ++ rest
  full : ∀ b ∈ blocks, b.length = k
  short : rest.length < k

theorem exists_groups {k : ℕ} (hk : 0 < k) (as : List A) :
    ∃ blocks rest, Groups k as blocks rest := by
  induction hn : as.length using Nat.strong_induction_on generalizing as with
  | _ n ih =>
    by_cases hlt : as.length < k
    · exact ⟨[], as, by simp, by simp, hlt⟩
    · have hdrop : (as.drop k).length < n := by
        rw [List.length_drop]
        omega
      obtain ⟨blocks, rest, hsplit, hfull, hshort⟩ := ih _ hdrop _ rfl
      have htake : (as.take k).length = k := by
        rw [List.length_take]
        omega
      refine ⟨as.take k :: blocks, rest, ?_, List.forall_mem_cons.mpr ⟨htake, hfull⟩, hshort⟩
      rw [List.flatten_cons, List.append_assoc, ← hsplit, List.take_append_drop]

theorem Groups.count {k : ℕ} {as : List A} {blocks : List (List A)} {rest : List A}
    (hg : Groups k as blocks rest) : as.length / k = blocks.length := by
  have hlen : blocks.flatten.length = blocks.length * k := by
    rw [List.length_flatten, List.map_eq_replicate_iff.mpr fun b hb => hg.full b hb,
      List.sum_replicate, smul_eq_mul]
  have hshort := hg.short
  rw [hg.split, List.length_append, hlen, Nat.add_comm, Nat.add_mul_div_right _ _ (by omega),
    Nat.div_eq_of_lt hshort, zero_add]

theorem Groups.first_pair {a b : A} {as : List A} {blocks : List (List A)} {rest : List A}
    (h : Groups 2 (a :: b :: as) blocks rest) : ∃ bs, blocks = [a, b] :: bs := by
  cases blocks with
  | nil =>
    have hlen := congrArg List.length h.split
    have hshort := h.short
    simp only [List.flatten_nil, List.nil_append, List.length_cons] at hlen
    omega
  | cons c bs =>
    obtain ⟨x, y, rfl⟩ := List.length_eq_two.mp (h.full c (by simp))
    have hsplit := h.split
    simp only [List.flatten_cons, List.cons_append, List.cons.injEq] at hsplit
    exact ⟨bs, by rw [hsplit.1, hsplit.2.1]⟩

theorem getSize_spec {h : Heap A} {head : Option A} {as : List A}
    (hc : Chain (link h) head as none) : Returns (getSize h head) (CInt.wrap as.length) := by
  have hrun : ∀ s : ℤ, Returns (loop (sizeBody h) (CInt.wrap s, head))
      (CInt.wrap (s + as.length)) := by
    induction as generalizing head with
    | nil =>
      intro s
      cases hc
      refine returns_loop_exit ?_
      simp only [sizeBody, ne_eq, not_true, if_false, List.length_nil, Nat.cast_zero, add_zero]
      exact returns_pure _
    | cons a as ih =>
      intro s
      obtain ⟨rfl, q, hq, hrest⟩ := hc
      obtain ⟨v, hv⟩ := link_some hq
      have hbody : Returns (sizeBody h (CInt.wrap s, some a)) (.next (CInt.wrap (s + 1), q)) := by
        simp only [sizeBody, ne_eq, reduceCtorEq, not_false_eq_true, if_true, node_some hv,
          Prog.liftM_eq_lift, Prog.lift_ok, Prog.pure_bind, CInt.wrap_add]
        exact returns_pure _
      have hlen : s + ((a :: as).length : ℤ) = s + 1 + as.length := by
        push_cast [List.length_cons]
        ring
      rw [hlen]
      exact returns_loop_next hbody (ih hrest _)
  have h0 := hrun 0
  rwa [zero_add] at h0

theorem getNodeByIndex_last {h : Heap A} {p q : Option A} {x : A} {xs ys : List A}
    (hc : Chain (link h) p (x :: xs ++ ys) q) :
    ∃ front a r, x :: xs = front ++ [a] ∧ getNodeByIndex h p xs.length = .ok (some a) ∧
      Chain (link h) p front (some a) ∧ link h a = some r ∧ Chain (link h) r ys q := by
  induction xs generalizing p x with
  | nil =>
    obtain ⟨rfl, r, hr, hrest⟩ := hc
    exact ⟨[], x, r, rfl, rfl, rfl, hr, hrest⟩
  | cons y xs ih =>
    obtain ⟨rfl, r, hr, hrest⟩ := hc
    obtain ⟨v, hv⟩ := link_some hr
    obtain ⟨front, a, t, hfront, hget, hchain, ht, hys⟩ := ih hrest
    refine ⟨x :: front, a, t, by rw [hfront, List.cons_append], ?_, ⟨rfl, r, hr, hchain⟩, ht, hys⟩
    simp only [List.length_cons, getNodeByIndex, node_some hv, bind, Except.bind]
    exact hget

variable [DecidableEq A]

theorem groupBody_spec {p0 : A} {done block todo : List A} {s k i : CInt} {h : Heap A}
    (hk : 0 < k.val) (hi : (done.length : ℤ) = i.val * k.val) (hblock : (block.length : ℤ) = k.val)
    (hfit : ((done ++ block).length : ℤ) ≤ intMax) {count : CInt} (hs : quotient s k = .ok count)
    (hlt : i < count) (hc : Chain (link h) (some p0) (p0 :: (done ++ block ++ todo)) none)
    (hnd : (p0 :: (done ++ block ++ todo)).Nodup) :
    ∃ h', Returns (groupBody (some p0) s k (i, h)) (.next (CInt.wrap (i.val + 1), h')) ∧
      Chain (link h') (some p0) (p0 :: (done ++ block.reverse ++ todo)) none ∧
      Relinked (p0 :: (done ++ block ++ todo)) h h' := by
  have hcells : p0 :: (done ++ block ++ todo) = p0 :: done ++ (block ++ todo) := by simp
  obtain ⟨front, a, r, hfront, hp1, hchain, ha, hrest⟩ := getNodeByIndex_last (hcells ▸ hc)
  obtain ⟨_, b, t, -, hp2, -, hb, htodo⟩ :=
    @getNodeByIndex_last _ h (some p0) none p0 (done ++ block) todo hc
  obtain ⟨m, hblockc, htodo'⟩ := Chain.append_iff.mp hrest
  obtain rfl := htodo.start_unique htodo'
  have hcells' : p0 :: (done ++ block ++ todo) = front ++ ((a :: block) ++ todo) := by
    rw [hcells, hfront]
    simp
  rw [hcells'] at hnd ⊢
  obtain ⟨-, hmid, hfrontd⟩ := List.nodup_append.mp hnd
  obtain ⟨hmid, -, htodod⟩ := List.nodup_append.mp hmid
  have hne : block ≠ [] := by
    rintro rfl
    simp only [List.length_nil, Nat.cast_zero] at hblock
    omega
  have htail : ∀ x ∈ t, x ∉ a :: block := by
    rintro x rfl hx
    exact htodod x hx x htodo.mem_of_some rfl
  obtain ⟨h', hrevert, hrev, hrel⟩ :=
    doRevert_spec hne (Chain.cons_iff.mpr ⟨rfl, r, ha, hblockc⟩) hmid htail
  have hidx : (CInt.wrap (i.val * k.val)).val.toNat = done.length := by
    rw [← hi, CInt.wrap_natCast (by rw [List.length_append] at hfit; omega), Int.toNat_natCast]
  have hidx' : (CInt.wrap ((CInt.wrap (i.val + 1)).val * k.val)).val.toNat =
      (done ++ block).length := by
    rw [CInt.wrap_succ hlt, add_mul, one_mul, ← hi, ← hblock, ← Nat.cast_add,
      ← List.length_append, CInt.wrap_natCast hfit, Int.toNat_natCast]
  obtain ⟨v, hv⟩ := link_some hb
  refine ⟨h', ?_, ?_, hrel.mono fun x hx => ?_⟩
  · simp only [groupBody, hs, hlt, if_true, hidx, hidx', hp1, hp2, node_some hv,
      Prog.liftM_eq_lift, Prog.lift_ok, Prog.pure_bind]
    exact hrevert.bind (returns_pure _)
  · have hcells'' : p0 :: (done ++ block.reverse ++ todo) =
        front ++ ((a :: block.reverse) ++ todo) := by
      rw [List.append_assoc, ← List.cons_append, hfront]
      simp
    rw [hcells'']
    refine Chain.append_iff.mpr ⟨some a, hchain.congr fun x hx => hrel.link_eq fun hmem => ?_,
      Chain.append_iff.mpr ⟨t, hrev, htodo.congr fun x hx => hrel.link_eq fun hmem => ?_⟩⟩
    · exact hfrontd x hx x (List.mem_append_left _ hmem) rfl
    · exact htodod x hmem x hx rfl
  · exact List.mem_append_right _ (List.mem_append_left _ hx)

theorem group_run {p0 : A} {done rest : List A} {blocks : List (List A)} {s k i : CInt} {h : Heap A}
    (hk : 0 < k.val) (hi : (done.length : ℤ) = i.val * k.val)
    (hblocks : ∀ b ∈ blocks, (b.length : ℤ) = k.val) {count : CInt}
    (hs : quotient s k = .ok count) (hcount : count.val = i.val + blocks.length)
    (hfit : ((done ++ blocks.flatten).length : ℤ) ≤ intMax)
    (hc : Chain (link h) (some p0) (p0 :: (done ++ blocks.flatten ++ rest)) none)
    (hnd : (p0 :: (done ++ blocks.flatten ++ rest)).Nodup) :
    ∃ h', Returns (loop (groupBody (some p0) s k) (i, h)) h' ∧
      Chain (link h') (some p0) (p0 :: (done ++ (blocks.map List.reverse).flatten ++ rest)) none ∧
      Relinked (p0 :: (done ++ blocks.flatten ++ rest)) h h' := by
  induction blocks generalizing done i h with
  | nil =>
    refine ⟨h, returns_loop_exit ?_, by simpa using hc, .refl _ _⟩
    have hend : ¬ i < count := by
      show ¬ i.val < count.val
      simp [hcount]
    simp only [groupBody, hs, hend, if_false, Prog.liftM_eq_lift, Prog.lift_ok, Prog.pure_bind]
    exact returns_pure _
  | cons b blocks ih =>
    obtain ⟨hb, hblocks⟩ := List.forall_mem_cons.mp hblocks
    have hlt : i < count := by
      show i.val < count.val
      rw [hcount, List.length_cons]
      omega
    have hnext := CInt.wrap_succ hlt
    have hcells : ∀ c : List A, p0 :: (done ++ c ++ (blocks.flatten ++ rest)) =
        p0 :: (done ++ c ++ blocks.flatten ++ rest) := by simp
    have hflat : p0 :: (done ++ (b :: blocks).flatten ++ rest) =
        p0 :: (done ++ b ++ (blocks.flatten ++ rest)) := by simp
    rw [hflat] at hc hnd ⊢
    have hlen : (done ++ (b :: blocks).flatten).length = (done ++ b ++ blocks.flatten).length := by
      simp
    rw [hlen] at hfit
    have hfit₁ : ((done ++ b).length : ℤ) ≤ intMax := by
      rw [List.length_append] at hfit
      omega
    obtain ⟨h₁, hturn, hc₁, hrel₁⟩ := groupBody_spec hk hi hb hfit₁ hs hlt hc hnd
    have hperm : (p0 :: (done ++ b ++ (blocks.flatten ++ rest))).Perm
        (p0 :: (done ++ b.reverse ++ (blocks.flatten ++ rest))) :=
      (((List.reverse_perm b).symm.append_left done).append_right _).cons p0
    have hi' : ((done ++ b.reverse).length : ℤ) = (CInt.wrap (i.val + 1)).val * k.val := by
      rw [hnext, List.length_append, List.length_reverse, Nat.cast_add, hi, hb]
      ring
    have hcount' : count.val = (CInt.wrap (i.val + 1)).val + blocks.length := by
      rw [hnext, hcount, List.length_cons]
      push_cast
      ring
    have hfit' : ((done ++ b.reverse ++ blocks.flatten).length : ℤ) ≤ intMax := by
      simpa using hfit
    obtain ⟨h₂, hrun, hc₂, hrel₂⟩ := ih hi' hblocks hcount' hfit' (hcells _ ▸ hc₁)
      (hcells _ ▸ hperm.nodup hnd)
    refine ⟨h₂, returns_loop_next hturn hrun, by simpa using hc₂, hrel₁.trans (hrel₂.mono ?_)⟩
    rw [← hcells]
    exact hperm.symm.subset

theorem quotient_of_pos {s k : CInt} (hs : 0 ≤ s.val) (hk : 0 < k.val) :
    ∃ count, quotient s k = .ok count ∧ count.val = s.val / k.val := by
  have hno : ¬ (k.val = 0 ∨ s.val = intMin ∧ k.val = -1) := by omega
  have hdiv : s.val.tdiv k.val = s.val / k.val := Int.tdiv_eq_ediv_of_nonneg hs
  have hle : s.val / k.val ≤ s.val := Int.ediv_le_self _ hs
  have hpos : 0 ≤ s.val / k.val := Int.ediv_nonneg hs hk.le
  have hmax := s.property.2
  refine ⟨_, if_neg hno, ?_⟩
  rw [hdiv]
  exact CInt.wrap_of_fits ⟨by unfold intMin; omega, by omega⟩

theorem quotient_of_neg {s k : CInt} (hs : s.val ≤ 0) (hk : 1 ≤ k.val) :
    ∃ count, quotient s k = .ok count ∧ ¬ CInt.zero < count := by
  have hno : ¬ (k.val = 0 ∨ s.val = intMin ∧ k.val = -1) := by omega
  have hneg : 0 ≤ -s.val := by omega
  have hdiv : s.val.tdiv k.val = -(-s.val / k.val) := by
    rw [← Int.tdiv_eq_ediv_of_nonneg hneg, Int.neg_tdiv, neg_neg]
  have hle : -s.val / k.val ≤ -s.val := Int.ediv_le_self _ hneg
  have hpos : 0 ≤ -s.val / k.val := Int.ediv_nonneg hneg (by omega)
  have hmin := s.property.1
  have hval : (CInt.wrap (s.val.tdiv k.val)).val = -(-s.val / k.val) := by
    rw [hdiv]
    exact CInt.wrap_of_fits ⟨by omega, by unfold intMax; omega⟩
  refine ⟨_, if_neg hno, ?_⟩
  show ¬ (0 : ℤ) < (CInt.wrap (s.val.tdiv k.val)).val
  omega

theorem newNode_some (h : Heap A) (p0 : A) (head : Option A) :
    newNode h (some p0) CInt.zero head =
      .ok (Function.update h p0 (some ⟨CInt.zero, head⟩)) := rfl

theorem chain_newNode {p0 : A} {h : Heap A} {head : Option A} {as : List A}
    (hc : Chain (link h) head as none) (hp0 : h p0 = none) :
    p0 ∉ as ∧ Chain (link (Function.update h p0 (some ⟨CInt.zero, head⟩))) head as none := by
  have hnotmem : p0 ∉ as := by
    intro hmem
    obtain ⟨r, hr⟩ := hc.exists_link hmem
    obtain ⟨v, hv⟩ := link_some hr
    cases hp0.symm.trans hv
  refine ⟨hnotmem, hc.congr fun a ha => ?_⟩
  have hne : a ≠ p0 := fun heq => hnotmem (heq ▸ ha)
  rw [link, Function.update_of_ne hne, link]

/-- `reverseKGroup` reverses every full block of `k` nodes in place and keeps the nodes of the
rest in their order, as long as `get_size` can count them. -/
theorem reverseKGroup_spec {p0 : A} {h : Heap A} {head : Option A} {as : List A} {k : CInt}
    (hc : Chain (link h) head as none) (hnd : as.Nodup) (hlen : (as.length : ℤ) ≤ intMax)
    (hk : 1 ≤ k.val) (hp0 : h p0 = none) :
    ∃ head' h' blocks rest, Returns (reverseKGroup (some p0) h head k) (head', h') ∧
      Groups k.val.toNat as blocks rest ∧
      Chain (link h') head' ((blocks.map List.reverse).flatten ++ rest) none ∧
      (∀ a, a ≠ p0 → a ∉ as → h' a = h a) ∧
      ∀ a, a ≠ p0 → (h' a).map Node.val = (h a).map Node.val := by
  obtain ⟨hnotmem, hc₀⟩ := chain_newNode hc hp0
  obtain ⟨n, hn⟩ : ∃ n : ℕ, k.val = n := ⟨k.val.toNat, by omega⟩
  obtain ⟨blocks, rest, hg⟩ := exists_groups (by omega : 0 < n) as
  have hsize : (CInt.wrap as.length).val = as.length := CInt.wrap_natCast hlen
  obtain ⟨count, hs, hcount⟩ := quotient_of_pos (s := CInt.wrap as.length) (k := k)
    (by rw [hsize]; exact Int.natCast_nonneg _) (by omega)
  rw [hsize, hn, ← Int.natCast_ediv, hg.count] at hcount
  have hp0c : Chain (link (Function.update h p0 (some ⟨CInt.zero, head⟩))) (some p0)
      (p0 :: ([] ++ blocks.flatten ++ rest)) none := by
    rw [List.nil_append, ← hg.split]
    exact ⟨rfl, head, by simp [link], hc₀⟩
  have hp0nd : (p0 :: ([] ++ blocks.flatten ++ rest)).Nodup := by
    rw [List.nil_append, ← hg.split]
    exact List.nodup_cons.mpr ⟨hnotmem, hnd⟩
  have hfit : ((([] : List A) ++ blocks.flatten).length : ℤ) ≤ intMax := by
    rw [hg.split, List.length_append] at hlen
    rw [List.nil_append]
    omega
  have hzero : (([] : List A).length : ℤ) = CInt.zero.val * k.val := (Int.zero_mul _).symm
  obtain ⟨h', hrun, hc', hrel⟩ := group_run (by omega : 0 < k.val) hzero
    (fun b hb => by rw [hg.full b hb, hn]) hs (by rw [hcount]; exact (Int.zero_add _).symm) hfit
    hp0c hp0nd
  obtain ⟨-, head', hhead', hrest⟩ := hc'
  obtain ⟨v, hv⟩ := link_some hhead'
  refine ⟨head', h', blocks, rest, ?_, by rwa [hn, Int.toNat_natCast], by simpa using hrest,
    fun a ha hmem => ?_, fun a ha => ?_⟩
  · simp only [reverseKGroup, newNode_some, Prog.liftM_eq_lift, Prog.lift_ok, Prog.pure_bind]
    refine (getSize_spec hc₀).bind (hrun.bind ?_)
    simp only [node_some hv, Prog.lift_ok, Prog.pure_bind]
    exact returns_pure _
  · rw [List.nil_append, ← hg.split] at hrel
    rw [hrel.frame a (by simp [ha, hmem]), Function.update_of_ne ha]
  · rw [hrel.vals, Function.update_of_ne ha]

def two : CInt := ⟨2, by decide⟩

theorem reverseKGroup_spec_sample :
    ∃ head' h' blocks rest, Returns (reverseKGroup (some 9) threeNodes (some 0) two) (head', h') ∧
      Groups 2 [0, 1, 2] blocks rest ∧
      Chain (link h') head' ((blocks.map List.reverse).flatten ++ rest) none ∧
      (∀ a, a ≠ 9 → a ∉ [0, 1, 2] → h' a = threeNodes a) ∧
      ∀ a, a ≠ 9 → (h' a).map Node.val = (threeNodes a).map Node.val :=
  reverseKGroup_spec threeNodes_chain (by decide) (by decide) (by decide) rfl

/-! ### A list that is too long -/

def row (n : ℕ) : Heap ℕ := fun a =>
  if a < n then some ⟨CInt.zero, if a + 1 < n then some (a + 1) else none⟩ else none

theorem row_chain {n i : ℕ} (m : ℕ) (h : i + m = n) :
    Chain (link (row n)) (if i < n then some i else none) (List.range' i m) none := by
  induction m generalizing i with
  | zero => rw [if_neg (by omega)]; rfl
  | succ m ih =>
    rw [if_pos (by omega), List.range'_succ]
    refine ⟨rfl, _, ?_, ih (by omega)⟩
    rw [link, row, if_pos (by omega), Option.map_some]

/-- A negative size makes a negative count, and no block is reversed. -/
theorem reverseKGroup_of_negative {p0 : A} {h : Heap A} {head : Option A} {as : List A} {k : CInt}
    (hc : Chain (link h) head as none) (hp0 : h p0 = none) (hneg : (CInt.wrap as.length).val < 0)
    (hk : 1 ≤ k.val) : ∃ h', Returns (reverseKGroup (some p0) h head k) (head, h') := by
  obtain ⟨-, hc₀⟩ := chain_newNode hc hp0
  obtain ⟨count, hs, hend⟩ := quotient_of_neg hneg.le hk
  have hloop : Returns (loop (groupBody (some p0) (CInt.wrap as.length) k)
      (CInt.zero, Function.update h p0 (some ⟨CInt.zero, head⟩)))
      (Function.update h p0 (some ⟨CInt.zero, head⟩)) := by
    refine returns_loop_exit ?_
    simp only [groupBody, hs, hend, if_false, Prog.liftM_eq_lift, Prog.lift_ok, Prog.pure_bind]
    exact returns_pure _
  refine ⟨Function.update h p0 (some ⟨CInt.zero, head⟩), ?_⟩
  simp only [reverseKGroup, newNode_some, Prog.liftM_eq_lift, Prog.lift_ok, Prog.pure_bind]
  refine (getSize_spec hc₀).bind (hloop.bind ?_)
  simp only [node_some (Function.update_self ..), Prog.lift_ok, Prog.pure_bind]
  exact returns_pure _

/-- With `INT_MAX + 1` nodes the size wraps to `INT_MIN`, and the pairs stay as they are. -/
theorem reverseKGroup_of_long_list :
    Chain (link (row 2147483648)) (some 0) (List.range' 0 2147483648) none ∧
      (List.range' 0 2147483648).Nodup ∧ 1 ≤ two.val ∧ row 2147483648 2147483648 = none ∧
      ¬ ∃ head' h' blocks rest,
        Returns (reverseKGroup (some 2147483648) (row 2147483648) (some 0) two) (head', h') ∧
        Groups two.val.toNat (List.range' 0 2147483648) blocks rest ∧
        Chain (link h') head' ((blocks.map List.reverse).flatten ++ rest) none := by
  have hc := row_chain (i := 0) (n := 2147483648) 2147483648 (by omega)
  rw [if_pos (by omega)] at hc
  have hfresh : row 2147483648 2147483648 = none := by simp [row]
  refine ⟨hc, List.nodup_range', by decide, hfresh, ?_⟩
  rintro ⟨head', h', blocks, rest, hret, hg, hc'⟩
  have hneg : (CInt.wrap (List.range' 0 2147483648).length).val < 0 := by
    rw [List.length_range']
    decide
  obtain ⟨h₁, hret₁⟩ := reverseKGroup_of_negative hc hfresh hneg (show 1 ≤ two.val by decide)
  cases hret.unique hret₁
  have hcons : List.range' 0 2147483648 = 0 :: 1 :: List.range' 2 2147483646 := by
    rw [show 2147483648 = 2147483646 + 1 + 1 from rfl, List.range'_succ, List.range'_succ]
  rw [hcons] at hg
  obtain ⟨bs, rfl⟩ := hg.first_pair
  cases hc'.1

end GoodCommand.ListNode
