import GoodCommand.Library.Rings

/-! Rings that are lists. One cell of the ring is the head, the others are the entries of the list;
a cell that is neither a head nor an entry is alone. -/

namespace GoodCommand

variable {A : Type}

/-- The heads, each with the entries of its list. -/
abbrev Lists (A : Type) := A → Option (List A)

namespace Lists

def nil : Lists A := fun _ => none

def Has (T : Lists A) (a : A) : Prop := ∃ head xs, T head = some xs ∧ a ∈ head :: xs

structure Holds (T : Lists A) (r : Rings A) : Prop where
  linked : ∀ head xs, T head = some xs → head ∈ r.linked
  ring : ∀ head xs, T head = some xs → RingAt r.next head xs
  apart : ∀ head xs a ys, T head = some xs → T a = some ys → a ∉ xs
  alone : ∀ a, ¬T.Has a → r.next a = a

def Whole (T : Lists A) (P : A → Prop) : Prop :=
  ∀ head xs, T head = some xs → (∀ x ∈ head :: xs, P x) ∨ ∀ x ∈ head :: xs, ¬P x

variable {T T' : Lists A} {r r' : Rings A} {P Q : A → Prop}
variable {a b e head list new p : A} {as bs cs xs ys : List A}

theorem Whole.or (hP : T.Whole P) (hQ : T.Whole Q) : T.Whole fun x => P x ∨ Q x := by
  intro head xs h
  rcases hP head xs h with hP | hP
  · exact .inl fun _ hx => .inl (hP _ hx)
  · exact (hQ head xs h).imp (fun hQ _ hx => .inr (hQ _ hx))
      fun hQ x hx => not_or.mpr ⟨hP x hx, hQ x hx⟩

theorem whole_of_not_has (ha : ¬T.Has a) : T.Whole (· = a) := fun head xs h =>
  .inr fun _ hx heq => ha ⟨head, xs, h, heq ▸ hx⟩

theorem getLastD_mem (head : A) (as bs : List A) : as.getLastD head ∈ head :: (as ++ bs) := by
  cases as using List.reverseRecOn <;> simp

namespace Holds

theorem entry_linked (hT : T.Holds r) (hhead : T head = some xs) (he : e ∈ head :: xs) :
    e ∈ r.linked :=
  r.mem_linked (hT.ring head xs hhead) (hT.linked head xs hhead) he

theorem disjoint (hT : T.Holds r) (hhead : T head = some xs) (ha : T a = some ys) (hne : a ≠ head) :
    (head :: xs).Disjoint (a :: ys) := by
  refine (hT.ring head xs hhead).disjoint (hT.ring a ys ha) fun hmem => ?_
  exact hT.apart head xs a ys hhead ha ((List.mem_cons.mp hmem).resolve_left hne)

theorem whole (hT : T.Holds r) (hhead : T head = some xs) : T.Whole (· ∈ head :: xs) := by
  intro a ys ha
  by_cases hne : a = head
  · subst hne
    obtain rfl : xs = ys := Option.some.inj (hhead.symm.trans ha)
    exact .inl fun _ hx => hx
  · exact .inr fun x hx hmem => hT.disjoint hhead ha hne hmem hx

theorem entry_eq_none (hT : T.Holds r) (hhead : T head = some xs) (ha : a ∈ xs) : T a = none := by
  cases h : T a with
  | none => rfl
  | some ys => exact absurd ha (hT.apart head xs a ys hhead h)

theorem unlinked : nil.Holds (Rings.unlinked : Rings A) where
  linked _ _ h := nomatch h
  ring _ _ h := nomatch h
  apart _ _ _ _ h := nomatch h
  alone _ _ := rfl

theorem next_eq (hT : T.Holds r) (hT' : T.Holds r') : r.next = r'.next := by
  have hchain : ∀ {σ σ' : Equiv.Perm A} {a b as}, (b :: (as ++ [a])).IsChain (fun a b => σ a = b) →
      (b :: (as ++ [a])).IsChain (fun a b => σ' a = b) → ∀ x ∈ b :: as, σ x = σ' x := by
    intro σ σ' a b as h h' x hx
    induction as generalizing b with
    | nil =>
      obtain rfl := List.mem_singleton.mp hx
      exact (List.isChain_cons_cons.mp h).1.trans (List.isChain_cons_cons.mp h').1.symm
    | cons c as ih =>
      rw [List.cons_append, List.isChain_cons_cons] at h h'
      rcases List.mem_cons.mp hx with rfl | hx
      · exact h.1.trans h'.1.symm
      · exact ih h.2 h'.2 hx
  ext a
  by_cases ha : T.Has a
  · obtain ⟨head, xs, hhead, hmem⟩ := ha
    exact hchain (hT.ring _ _ hhead).chain (hT'.ring _ _ hhead).chain a hmem
  · rw [hT.alone a ha, hT'.alone a ha]

theorem update (hT : T.Holds r) (hP : T.Whole P)
    (hsame : ∀ a, ¬P a → T' a = T a ∧ r'.next a = r.next a ∧ (a ∈ r.linked → a ∈ r'.linked))
    (hring : ∀ a xs, P a → T' a = some xs →
      (∀ x ∈ xs, P x) ∧ a ∈ r'.linked ∧ RingAt r'.next a xs)
    (hapart : ∀ a xs b ys, P a → P b → T' a = some xs → T' b = some ys → b ∉ xs)
    (halone : ∀ a, P a → ¬T'.Has a → r'.next a = a) : T'.Holds r' where
  linked a xs h := by
    by_cases ha : P a
    · exact (hring a xs ha h).2.1
    · obtain ⟨heq, -, hlinked⟩ := hsame a ha
      exact hlinked (hT.linked a xs (heq.symm.trans h))
  ring a xs h := by
    by_cases ha : P a
    · exact (hring a xs ha h).2.2
    · have h := (hsame a ha).1.symm.trans h
      have hout := (hP a xs h).resolve_left fun hin => ha (hin a List.mem_cons_self)
      exact (hT.ring a xs h).congr fun x hx => (hsame x (hout x hx)).2.1
  apart a xs b ys h hb := by
    by_cases ha : P a
    · by_cases hPb : P b
      · exact hapart a xs b ys ha hPb h hb
      · exact fun hmem => hPb ((hring a xs ha h).1 b hmem)
    · have h := (hsame a ha).1.symm.trans h
      have hout := (hP a xs h).resolve_left fun hin => ha (hin a List.mem_cons_self)
      by_cases hPb : P b
      · exact fun hmem => hout b (List.mem_cons_of_mem _ hmem) hPb
      · exact hT.apart a xs b ys h ((hsame b hPb).1.symm.trans hb)
  alone a ha := by
    by_cases hPa : P a
    · exact halone a hPa ha
    · rw [(hsame a hPa).2.1]
      refine hT.alone a fun ⟨head, xs, h, hmem⟩ => ha ⟨head, xs, ?_, hmem⟩
      have hout := (hP head xs h).resolve_left fun hin => hPa (hin a hmem)
      exact (hsame head (hout head List.mem_cons_self)).1.trans h

end Holds

variable [DecidableEq A]

def set (T : Lists A) (head : A) (xs : List A) : Lists A := Function.update T head (some xs)

def drop (T : Lists A) (head : A) : Lists A := Function.update T head none

@[simp] theorem set_self (T : Lists A) (head : A) (xs : List A) : T.set head xs head = some xs :=
  Function.update_self ..

@[simp] theorem set_of_ne (h : a ≠ head) : T.set head xs a = T a := Function.update_of_ne h _ _

@[simp] theorem drop_self (T : Lists A) (head : A) : T.drop head head = none :=
  Function.update_self ..

@[simp] theorem drop_of_ne (h : a ≠ head) : T.drop head a = T a := Function.update_of_ne h _ _

theorem set_set (T : Lists A) (head : A) (xs ys : List A) :
    (T.set head xs).set head ys = T.set head ys :=
  Function.update_idem ..

theorem has_nil_set : (nil.set head xs).Has a ↔ a ∈ head :: xs := by
  constructor
  · rintro ⟨b, ys, h, hmem⟩
    by_cases heq : b = head
    · subst heq
      rw [set_self, Option.some.injEq] at h
      rwa [h]
    · rw [set_of_ne heq] at h
      cases h
  · exact fun hmem => ⟨head, xs, set_self .., hmem⟩

theorem has_set_self (ha : a ∈ head :: xs) : (T.set head xs).Has a := ⟨head, xs, set_self .., ha⟩

theorem Has.set (ha : T.Has a) (hhead : T head = some xs)
    (hmem : a ∈ head :: xs → a ∈ head :: ys) : (T.set head ys).Has a := by
  obtain ⟨b, zs, hb, hazs⟩ := ha
  rcases eq_or_ne b head with rfl | hne
  · obtain rfl := Option.some.inj (hhead.symm.trans hb)
    exact has_set_self (hmem hazs)
  · exact ⟨b, zs, (set_of_ne hne).trans hb, hazs⟩

theorem set_eq_self (h : T head = some xs) : T.set head xs = T := by
  rw [set, ← h, Function.update_eq_self]

theorem set_comm (T : Lists A) (h : a ≠ b) :
    (T.set a xs).set b ys = (T.set b ys).set a xs :=
  Function.update_comm h _ _ _

theorem drop_after_set (T : Lists A) (a : A) (xs : List A) : (T.set a xs).drop a = T.drop a :=
  Function.update_idem ..

theorem set_after_drop (T : Lists A) (a : A) (xs : List A) : (T.drop a).set a xs = T.set a xs :=
  Function.update_idem ..

theorem drop_set (h : T a = none) : (T.set a xs).drop a = T := by
  rw [drop, set, Function.update_idem, ← h, Function.update_eq_self]

namespace Holds

theorem enter_again (hT : T.Holds r) (a : A) : T.Holds (r.enter a) where
  linked head xs h := Finset.mem_insert_of_mem (hT.linked head xs h)
  ring := hT.ring
  apart := hT.apart
  alone := hT.alone

theorem dropEmpty (hT : T.Holds r) (hhead : T head = some []) : (T.drop head).Holds r where
  linked a xs h := by
    by_cases heq : a = head
    · subst heq
      simp at h
    · exact hT.linked a xs ((drop_of_ne heq).symm.trans h)
  ring a xs h := by
    by_cases heq : a = head
    · subst heq
      simp at h
    · exact hT.ring a xs ((drop_of_ne heq).symm.trans h)
  apart a xs b ys h hb := by
    by_cases heq : a = head
    · subst heq
      simp at h
    · by_cases heq' : b = head
      · subst heq'
        simp at hb
      · exact hT.apart a xs b ys ((drop_of_ne heq).symm.trans h) ((drop_of_ne heq').symm.trans hb)
  alone a ha := by
    by_cases heq : a = head
    · subst heq
      exact ringAt_nil_iff.mp (hT.ring a [] hhead)
    · refine hT.alone a fun ⟨b, xs, h, hmem⟩ => ha ⟨b, xs, (drop_of_ne fun hb => ?_).trans h, hmem⟩
      subst hb
      obtain rfl : [] = xs := Option.some.inj (hhead.symm.trans h)
      exact heq (List.mem_singleton.mp hmem)

theorem update_one (hT : T.Holds r) (hhead : T head = some xs)
    (hsame : ∀ a ∉ head :: xs, r'.next a = r.next a ∧ (a ∈ r.linked → a ∈ r'.linked))
    (hlinked : head ∈ r'.linked) (hring : RingAt r'.next head ys) (hsub : ys ⊆ xs)
    (halone : ∀ a ∈ xs, a ∉ ys → r'.next a = a) : (T.set head ys).Holds r' := by
  have hmany : ∀ a zs, a ∈ head :: xs → T.set head ys a = some zs → a = head ∧ zs = ys := by
    intro a zs ha h
    rcases eq_or_ne a head with rfl | hne
    · exact ⟨rfl, (Option.some.inj ((set_self ..).symm.trans h)).symm⟩
    · rw [set_of_ne hne, hT.entry_eq_none hhead ((List.mem_cons.mp ha).resolve_left hne)] at h
      cases h
  refine hT.update (hT.whole hhead) (fun a ha => ?_) (fun a zs ha h => ?_)
    (fun a zs b ws ha hb h h' => ?_) fun a ha hout => ?_
  · exact ⟨set_of_ne fun heq => ha (heq ▸ List.mem_cons_self), hsame a ha⟩
  · obtain ⟨rfl, rfl⟩ := hmany a zs ha h
    exact ⟨fun x hx => List.mem_cons_of_mem _ (hsub hx), hlinked, hring⟩
  · obtain ⟨rfl, rfl⟩ := hmany a zs ha h
    obtain ⟨rfl, rfl⟩ := hmany b ws hb h'
    exact (List.nodup_cons.mp hring.nodup).1
  · have hout : a ∉ head :: ys := fun hmem => hout ⟨head, ys, set_self .., hmem⟩
    rw [List.mem_cons, not_or] at hout
    exact halone a ((List.mem_cons.mp ha).resolve_left hout.1) hout.2

theorem leave (hT : T.Holds r) (hhead : T head = some (as ++ e :: bs)) :
    (T.set head (as ++ bs)).Holds (r.leave e) := by
  have hring := hT.ring _ _ hhead
  have hne : head ≠ e := by
    rintro rfl
    exact hT.apart _ _ _ _ hhead hhead (by simp)
  refine hT.update_one hhead (fun a ha => ⟨?_, fun hmem => ?_⟩) ?_ hring.isolate ?_ ?_
  · have hae : a ≠ e := fun heq => ha (by simp [heq])
    have hnext : r.next a ≠ e := fun heq => ha (hring.apply_mem_iff.mp (by simp [heq]))
    rw [Rings.leave_next, isolate_apply, if_neg hae, if_neg hnext]
  · exact Finset.mem_erase.mpr ⟨fun heq => ha (by simp [heq]), hmem⟩
  · exact Finset.mem_erase.mpr ⟨hne, hT.linked _ _ hhead⟩
  · intro x hx
    simp only [List.mem_append, List.mem_cons] at hx ⊢
    tauto
  · intro a ha hout
    obtain rfl : a = e := by
      simp only [List.mem_append, List.mem_cons] at ha hout
      tauto
    exact isolate_self _ _

theorem not_has (hT : T.Holds (r.leave e)) : ¬T.Has e := fun ⟨_, _, hhead, hmem⟩ =>
  Finset.notMem_erase e _ (hT.entry_linked hhead hmem)

theorem enter (hT : T.Holds r) (ha : ¬T.Has a) : (T.set a []).Holds (r.enter a) := by
  have hring := ringAt_nil_iff.mpr (hT.alone a ha)
  refine hT.update (whole_of_not_has ha) (fun b hb => ?_) (fun b xs hb h => ?_)
    (fun b xs c ys hb hc h h' => ?_) fun b hb hout => ?_
  · exact ⟨set_of_ne hb, rfl, Finset.mem_insert_of_mem⟩
  · obtain rfl : b = a := hb
    obtain rfl : [] = xs := Option.some.inj ((set_self ..).symm.trans h)
    exact ⟨by simp, Finset.mem_insert_self .., hring⟩
  · obtain rfl : b = a := hb
    obtain rfl : [] = xs := Option.some.inj ((set_self ..).symm.trans h)
    exact List.not_mem_nil
  · obtain rfl : b = a := hb
    exact absurd ⟨b, [], set_self .., by simp⟩ hout

theorem join (hT : T.Holds r) (hlist : T list = some ys) (hhead : T head = some (as ++ bs))
    (hne : list ≠ head) :
    ((T.drop list).set head (as ++ ys ++ list :: bs)).Holds
      (r.exchange (as.getLastD head) list) := by
  have hdisj := hT.disjoint hhead hlist hne
  have hjoin := (hT.ring _ _ hhead).joinAt (hT.ring _ _ hlist) fun hmem =>
    hdisj hmem List.mem_cons_self
  have hmany : ∀ a zs, (a ∈ head :: (as ++ bs) ∨ a ∈ list :: ys) →
      (T.drop list).set head (as ++ ys ++ list :: bs) a = some zs →
      a = head ∧ zs = as ++ ys ++ list :: bs := by
    intro a zs ha h
    rcases eq_or_ne a head with rfl | hnehead
    · exact ⟨rfl, (Option.some.inj ((set_self ..).symm.trans h)).symm⟩
    · rw [set_of_ne hnehead] at h
      rcases eq_or_ne a list with rfl | hnelist
      · rw [drop_self] at h
        cases h
      · rw [drop_of_ne hnelist] at h
        rcases ha with ha | ha
        · rw [hT.entry_eq_none hhead ((List.mem_cons.mp ha).resolve_left hnehead)] at h
          cases h
        · rw [hT.entry_eq_none hlist ((List.mem_cons.mp ha).resolve_left hnelist)] at h
          cases h
  refine hT.update ((hT.whole hhead).or (hT.whole hlist)) (fun a ha => ?_) (fun a zs ha h => ?_)
    (fun a zs b ws ha hb h h' => ?_) fun a ha hout => ?_
  · rw [not_or] at ha
    refine ⟨?_, ?_, fun hmem => Finset.mem_insert_of_mem (Finset.mem_insert_of_mem hmem)⟩
    · rw [set_of_ne fun heq => ha.1 (by simp [heq]), drop_of_ne fun heq => ha.2 (by simp [heq])]
    · exact exchange_of_ne (fun heq => ha.1 (heq ▸ getLastD_mem ..)) fun heq => ha.2 (by simp [heq])
  · obtain ⟨rfl, rfl⟩ := hmany a zs ha h
    refine ⟨fun x hx => ?_, ?_, hjoin⟩
    · simp only [List.mem_append, List.mem_cons] at hx ⊢
      tauto
    · exact Finset.mem_insert_of_mem (Finset.mem_insert_of_mem (hT.linked _ _ hhead))
  · obtain ⟨rfl, rfl⟩ := hmany a zs ha h
    obtain ⟨rfl, rfl⟩ := hmany b ws hb h'
    exact (List.nodup_cons.mp hjoin.nodup).1
  · refine absurd ⟨head, _, set_self .., ?_⟩ hout
    simp only [List.mem_append, List.mem_cons] at ha ⊢
    tauto

theorem insert (hT : T.Holds r) (hnew : ¬T.Has new) (hhead : T head = some (as ++ bs)) :
    (T.set head (as ++ new :: bs)).Holds (r.exchange (as.getLastD head) new) := by
  have hnone : T new = none := by
    cases h : T new with
    | none => rfl
    | some xs => exact absurd ⟨new, xs, h, List.mem_cons_self⟩ hnew
  have hne : new ≠ head := by
    rintro rfl
    rw [hnone] at hhead
    cases hhead
  have hjoin := (hT.enter hnew).join (set_self ..) ((set_of_ne hne.symm).trans hhead) hne
  rwa [drop_set hnone, Rings.enter_exchange, List.append_nil] at hjoin

theorem insertFirst (hT : T.Holds r) (hnew : ¬T.Has new) (hhead : T head = some xs) :
    (T.set head (new :: xs)).Holds (r.exchange head new) :=
  hT.insert hnew (show T head = some ([] ++ xs) from hhead)

theorem insertLast (hT : T.Holds r) (hnew : ¬T.Has new) (hhead : T head = some xs) :
    (T.set head (xs ++ [new])).Holds (r.exchange (xs.getLastD head) new) :=
  hT.insert hnew (show T head = some (xs ++ []) by rw [hhead, List.append_nil])

theorem split (hT : T.Holds r) (hhead : T head = some (as ++ (bs ++ b :: cs))) :
    ((T.set b bs).set head (as ++ cs)).Holds (r.exchange (as.getLastD head) b) := by
  have hsplit := (hT.ring _ _ hhead).splitAt
  have hbmem : b ∈ as ++ (bs ++ b :: cs) := by simp
  have hne : b ≠ head := by
    rintro rfl
    exact hT.apart _ _ _ _ hhead hhead hbmem
  have hmany : ∀ a zs, a ∈ head :: (as ++ (bs ++ b :: cs)) →
      (T.set b bs).set head (as ++ cs) a = some zs →
      a = head ∧ zs = as ++ cs ∨ a = b ∧ zs = bs := by
    intro a zs ha h
    rcases eq_or_ne a head with rfl | hnehead
    · exact .inl ⟨rfl, (Option.some.inj ((set_self ..).symm.trans h)).symm⟩
    · rw [set_of_ne hnehead] at h
      rcases eq_or_ne a b with rfl | hneb
      · exact .inr ⟨rfl, (Option.some.inj ((set_self ..).symm.trans h)).symm⟩
      · rw [set_of_ne hneb,
          hT.entry_eq_none hhead ((List.mem_cons.mp ha).resolve_left hnehead)] at h
        cases h
  have hnd := (hT.ring _ _ hhead).nodup
  simp only [List.nodup_cons, List.nodup_append, List.mem_append, List.mem_cons, not_or] at hnd
  refine hT.update (hT.whole hhead) (fun a ha => ?_) (fun a zs ha h => ?_)
    (fun a zs c ws ha hc h h' => ?_) fun a ha hout => ?_
  · refine ⟨?_, ?_, fun hmem => Finset.mem_insert_of_mem (Finset.mem_insert_of_mem hmem)⟩
    · rw [set_of_ne fun heq => ha (by simp [heq]), set_of_ne fun heq => ha (by simp [heq])]
    · exact exchange_of_ne (fun heq => ha (heq ▸ getLastD_mem ..)) fun heq => ha (by simp [heq])
  · rcases hmany a zs ha h with ⟨rfl, rfl⟩ | ⟨rfl, rfl⟩
    · refine ⟨fun x hx => ?_, ?_, hsplit.1⟩
      · simp only [List.mem_append, List.mem_cons] at hx ⊢
        tauto
      · exact Finset.mem_insert_of_mem (Finset.mem_insert_of_mem (hT.linked _ _ hhead))
    · refine ⟨fun x hx => ?_, ?_, hsplit.2⟩
      · simp only [List.mem_append, List.mem_cons]
        tauto
      · exact Finset.mem_insert_of_mem (Finset.mem_insert_self ..)
  · rcases hmany a zs ha h with ⟨rfl, rfl⟩ | ⟨rfl, rfl⟩ <;>
      rcases hmany c ws hc h' with ⟨rfl, rfl⟩ | ⟨rfl, rfl⟩ <;>
      grind
  · have hmem : (a ∈ head :: (as ++ cs)) ∨ a ∈ b :: bs := by
      simp only [List.mem_append, List.mem_cons] at ha ⊢
      tauto
    rcases hmem with hmem | hmem
    · exact absurd ⟨head, as ++ cs, set_self .., hmem⟩ hout
    · exact absurd ⟨b, bs, (set_of_ne hne).trans (set_self ..), hmem⟩ hout

theorem rehead (hT : T.Holds r) (hhead : T head = some (as ++ e :: bs)) :
    ((T.drop head).set e (bs ++ head :: as)).Holds r := by
  have hrotate := (hT.ring _ _ hhead).rotate
  have hmany : ∀ a zs, a ∈ head :: (as ++ e :: bs) →
      (T.drop head).set e (bs ++ head :: as) a = some zs → a = e ∧ zs = bs ++ head :: as := by
    intro a zs ha h
    rcases eq_or_ne a e with rfl | hne
    · exact ⟨rfl, (Option.some.inj ((set_self ..).symm.trans h)).symm⟩
    · rw [set_of_ne hne] at h
      rcases eq_or_ne a head with rfl | hnehead
      · rw [drop_self] at h
        cases h
      · rw [drop_of_ne hnehead,
          hT.entry_eq_none hhead ((List.mem_cons.mp ha).resolve_left hnehead)] at h
        cases h
  refine hT.update (hT.whole hhead) (fun a ha => ?_) (fun a zs ha h => ?_)
    (fun a zs b ws ha hb h h' => ?_) fun a ha hout => ?_
  · refine ⟨?_, rfl, id⟩
    rw [set_of_ne fun heq => ha (by simp [heq]), drop_of_ne fun heq => ha (by simp [heq])]
  · obtain ⟨rfl, rfl⟩ := hmany a zs ha h
    refine ⟨fun x hx => ?_, hT.entry_linked hhead (by simp), hrotate⟩
    simp only [List.mem_append, List.mem_cons] at hx ⊢
    tauto
  · obtain ⟨rfl, rfl⟩ := hmany a zs ha h
    obtain ⟨rfl, rfl⟩ := hmany b ws hb h'
    exact (List.nodup_cons.mp hrotate.nodup).1
  · refine absurd ⟨e, _, set_self .., ?_⟩ hout
    simp only [List.mem_append, List.mem_cons] at ha ⊢
    tauto

/-! ### Combinations -/

theorem replace (hT : T.Holds r) (hnew : ¬T.Has new) (hhead : T head = some (as ++ e :: bs)) :
    (T.set head (as ++ new :: bs)).Holds ((r.exchange e new).leave e) := by
  have hins := hT.insert hnew (show T head = some ((as ++ [e]) ++ bs) by simpa using hhead)
  rw [List.getLastD_concat, List.append_assoc, List.singleton_append] at hins
  have hleave := hins.leave (set_self ..)
  rwa [set_set] at hleave

theorem replaceHead (hT : T.Holds r) (hnew : ¬T.Has new) (hold : T e = some xs) :
    ((T.drop e).set new xs).Holds ((r.exchange e new).leave e) := by
  have hhead : T.set e (new :: xs) e = some ([] ++ new :: xs) := set_self ..
  have hhead := (hT.insertFirst hnew hold).rehead hhead
  have hleave := hhead.leave (set_self ..)
  rwa [set_set, List.append_nil, drop_after_set] at hleave

theorem splice (hT : T.Holds r) (hlist : T list = some ys) (hhead : T head = some (as ++ bs))
    (hne : list ≠ head) :
    ((T.drop list).set head (as ++ ys ++ bs)).Holds
      ((r.exchange (as.getLastD head) list).leave list) := by
  have hleave := (hT.join hlist hhead hne).leave (set_self ..)
  rwa [set_set] at hleave

theorem cut (hT : T.Holds r) (hlist : ¬T.Has list) (hhead : T head = some (as ++ bs)) :
    ((T.set list as).set head bs).Holds
      ((r.exchange (as.getLastD head) list).exchange head list) := by
  have hne : head ≠ list := fun heq => hlist ⟨head, _, hhead, by simp [heq]⟩
  have hins : T.set head (as ++ list :: bs) head = some ([] ++ (as ++ list :: bs)) := set_self ..
  have hsplit := (hT.insert hlist hhead).split hins
  rwa [set_comm _ hne, set_set] at hsplit

theorem moveToEnd (hT : T.Holds r) (hhead : T head = some (as ++ (bs ++ b :: cs))) :
    (T.set head (as ++ cs ++ (bs ++ [b]))).Holds
      ((r.exchange (as.getLastD head) b).exchange ((as ++ cs).getLastD head) b) := by
  have hb : b ∈ as ++ (bs ++ b :: cs) := by simp
  have hnone := hT.entry_eq_none hhead hb
  have hne : b ≠ head := by
    rintro rfl
    rw [hnone] at hhead
    cases hhead
  have hrest : (T.set b bs).set head (as ++ cs) head = some ((as ++ cs) ++ []) := by
    rw [set_self, List.append_nil]
  have hjoin := (hT.split hhead).join ((set_of_ne hne).trans (set_self ..)) hrest hne
  rw [set_comm _ hne, drop_set ((set_of_ne hne).trans hnone), set_set,
    List.append_assoc (as ++ cs)] at hjoin
  exact hjoin

theorem toFront (hT : T.Holds r) (hhead : T head = some (as ++ e :: bs)) :
    (T.set head (e :: (bs ++ as))).Holds
      ((r.leave head).exchange ((bs ++ as).getLastD e) head) := by
  have he : e ∈ as ++ e :: bs := by simp
  have hnone := hT.entry_eq_none hhead he
  have hne : head ≠ e := by
    rintro rfl
    rw [hnone] at hhead
    cases hhead
  have hleave := (hT.rehead hhead).leave (set_self ..)
  rw [set_set] at hleave
  have hins := hleave.insertLast hleave.not_has (set_self ..)
  rw [set_set] at hins
  have hback := hins.rehead (set_self ..)
  rwa [drop_set ((drop_of_ne hne.symm).trans hnone), set_after_drop] at hback

theorem swap (hT : T.Holds r) (hnext : r'.next = Equiv.swap a b * r.next * Equiv.swap a b)
    (hlinked : r.linked ⊆ r'.linked) (ha : T.Has a) (hb : T.Has b) (hTa : T a = none)
    (hTb : T b = none) :
    Holds (fun head => (T head).map (List.map (Equiv.swap a b))) r' where
  linked head xs h := by
    obtain ⟨ys, h, -⟩ := Option.map_eq_some_iff.mp h
    exact hlinked (hT.linked head ys h)
  ring head xs h := by
    obtain ⟨ys, hys, rfl⟩ := Option.map_eq_some_iff.mp h
    have hne : head ≠ a ∧ head ≠ b := ⟨fun heq => by simp [heq, hTa] at hys,
      fun heq => by simp [heq, hTb] at hys⟩
    have hconj := (hT.ring head ys hys).conj (Equiv.swap a b)
    rwa [Equiv.swap_apply_of_ne_of_ne hne.1 hne.2, Equiv.swap_inv, ← hnext] at hconj
  apart head xs c zs h hc := by
    obtain ⟨ys, hys, rfl⟩ := Option.map_eq_some_iff.mp h
    obtain ⟨ws, hws, -⟩ := Option.map_eq_some_iff.mp hc
    have hne : c ≠ a ∧ c ≠ b := ⟨fun heq => by simp [heq, hTa] at hws,
      fun heq => by simp [heq, hTb] at hws⟩
    intro hmem
    obtain ⟨d, hd, hdc⟩ := List.mem_map.mp hmem
    rw [Equiv.swap_apply_eq_iff, Equiv.swap_apply_of_ne_of_ne hne.1 hne.2] at hdc
    exact hT.apart head ys c ws hys hws (hdc ▸ hd)
  alone c hc := by
    have hhas : ∀ x, T.Has x → T x = none →
        Has (fun head => (T head).map (List.map (Equiv.swap a b))) (Equiv.swap a b x) := by
      rintro x ⟨head, xs, h, hmem⟩ hx
      refine ⟨head, xs.map (Equiv.swap a b), by simp [h], ?_⟩
      have hmem := (List.mem_cons.mp hmem).resolve_left fun heq => by simp [heq, h] at hx
      exact List.mem_cons_of_mem _ (List.mem_map_of_mem hmem)
    have hne : c ≠ a ∧ c ≠ b := by
      constructor
      · rintro rfl
        exact hc (by simpa using hhas b hb hTb)
      · rintro rfl
        exact hc (by simpa using hhas a ha hTa)
    have hself := Equiv.swap_apply_of_ne_of_ne hne.1 hne.2
    rw [hnext, Equiv.Perm.mul_apply, Equiv.Perm.mul_apply, hself, hT.alone c, hself]
    rintro ⟨head, xs, h, hmem⟩
    rcases List.mem_cons.mp hmem with rfl | hmem
    · exact hc ⟨c, xs.map (Equiv.swap a b), by simp [h], List.mem_cons_self⟩
    · refine hc ?_
      have hthis := hhas c ⟨head, xs, h, List.mem_cons_of_mem _ hmem⟩ (hT.entry_eq_none h hmem)
      rwa [hself] at hthis

end Holds

end Lists

end GoodCommand
