import GoodCommand.HashList.Runs

/-! The hash table of the inodes, whose lists run through the member `i_hash` of the inodes. Inodes
that are not to be found in it are made to look as if they were. -/

namespace GoodCommand.Fs
open HashList

variable {H N : Type} [DecidableEq H] [DecidableEq N]

/-- The functions that `linux/fs.h` declares without their bodies, with what they are documented to
do. `bucket inode hashval` is the list for the superblock of the inode and `hashval`. -/
structure InodeHashtable (H N : Type) [DecidableEq H] [DecidableEq N] where
  bucket : N → ℕ → H
  insert : Heap H N → N → ℕ → Except (WildPointer H N) (Heap H N)
  remove : Heap H N → N → Except (WildPointer H N) (Heap H N)
  insert_eq : ∀ h inode hashval,
    insert h inode hashval = hlistAddHead h inode (bucket inode hashval)
  remove_eq : ∀ h inode, remove h inode = hlistDelInit h inode

def inodeUnhashed (h : Heap H N) (inode : N) : Except (WildPointer H N) Bool :=
  hlistUnhashed h inode

def inodeFakeHash (h : Heap H N) (inode : N) : Except (WildPointer H N) (Heap H N) :=
  hlistAddFake h inode

variable (F : InodeHashtable H N) (i_ino : N → ℕ)

def insertInodeHash (h : Heap H N) (inode : N) : Except (WildPointer H N) (Heap H N) :=
  F.insert h inode (i_ino inode)

def removeInodeHash (h : Heap H N) (inode : N) : Except (WildPointer H N) (Heap H N) := do
  if ← inodeUnhashed h inode then return h
  else if ← hlistFake h inode then return h
  else F.remove h inode

inductive HashCall (N : Type) where
  | insert (inode : N)
  | fake (inode : N)
  | remove (inode : N)

def HashCall.run (h : Heap H N) : HashCall N → Except (WildPointer H N) (Heap H N)
  | insert inode => insertInodeHash F i_ino h inode
  | fake inode => inodeFakeHash h inode
  | remove inode => removeInodeHash F h inode

/-! ### The inodes in the table -/

/-- The inodes that are hashed, the last one first, and those that look so. -/
structure Hashed (N : Type) where
  inodes : List N
  fakes : Finset N

def Hashed.call (s : Hashed N) : HashCall N → Hashed N
  | .insert inode => { s with inodes := inode :: s.inodes }
  | .fake inode => { s with fakes := insert inode s.fakes }
  | .remove inode => { s with inodes := s.inodes.filter (· ≠ inode) }

/-- An inode is hashed, or made to look so, only when it is not in the table, and hashed only when
it does not look so either. It may be removed at any time. -/
def HashCall.Meant (S : Finset (Slot H N)) (s : Hashed N) : HashCall N → Prop
  | insert inode => .next inode ∈ S ∧ inode ∉ s.inodes ∧ inode ∉ s.fakes
  | fake inode => .next inode ∈ S ∧ inode ∉ s.inodes
  | remove inode => .next inode ∈ S

def AllMeant (S : Finset (Slot H N)) (s : Hashed N) : List (HashCall N) → Prop
  | [] => True
  | call :: calls => call.Meant S s ∧ AllMeant S (s.call call) calls

/-- Each list has the inodes that hash to it. -/
def Hashed.table (S : Finset (Slot H N)) (s : Hashed N) : Table H N where
  lists hd :=
    if .first hd ∈ S then some (s.inodes.filter fun n => F.bucket n (i_ino n) = hd) else none
  loose n :=
    if .next n ∈ S ∧ n ∉ s.inodes then some (if n ∈ s.fakes then .fake else .idle) else none

structure Hashed.Inv (S : Finset (Slot H N)) (s : Hashed N) : Prop where
  nodup : s.inodes.Nodup
  within : ∀ n ∈ s.inodes, .next n ∈ S
  apart : ∀ n ∈ s.inodes, n ∉ s.fakes

variable {F i_ino} {S : Finset (Slot H N)} {s : Hashed N} {h : Heap H N} {n : N}
variable {a : HashCall N} {calls : List (HashCall N)} {xs : List N}

omit [DecidableEq H] in
theorem Hashed.Inv.call (hinv : s.Inv S) (hmeant : a.Meant S s) : (s.call a).Inv S := by
  cases a with
  | insert inode =>
    refine ⟨List.nodup_cons.mpr ⟨hmeant.2.1, hinv.nodup⟩, fun n hn => ?_, fun n hn => ?_⟩
    · rcases List.mem_cons.mp hn with rfl | hn
      · exact hmeant.1
      · exact hinv.within n hn
    · rcases List.mem_cons.mp hn with rfl | hn
      · exact hmeant.2.2
      · exact hinv.apart n hn
  | fake inode =>
    refine ⟨hinv.nodup, hinv.within, fun n hn hfake => ?_⟩
    rcases Finset.mem_insert.mp hfake with rfl | hfake
    · exact hmeant.2 hn
    · exact hinv.apart n hn hfake
  | remove inode =>
    exact ⟨hinv.nodup.filter _, fun n hn => hinv.within n (List.mem_filter.mp hn).1,
      fun n hn => hinv.apart n (List.mem_filter.mp hn).1⟩

namespace Hashed

variable (hbuckets : ∀ n, .next n ∈ S → .first (F.bucket n (i_ino n)) ∈ S)

variable (F i_ino) in
theorem lists_bucket {hd : H} (hhd : .first hd ∈ S) : (s.table F i_ino S).lists hd =
    some (s.inodes.filter fun n => F.bucket n (i_ino n) = hd) := if_pos hhd

theorem not_listed (hn : n ∉ s.inodes) : ¬(s.table F i_ino S).Listed n := by
  rintro ⟨hd, xs, hhd, hmem⟩
  change (if .first hd ∈ S then some _ else none) = some xs at hhd
  split_ifs at hhd
  cases hhd
  exact hn (List.mem_filter.mp hmem).1

variable (F i_ino) in
theorem loose_eq (hS : .next n ∈ S) (hn : n ∉ s.inodes) :
    (s.table F i_ino S).loose n = some (if n ∈ s.fakes then .fake else .idle) := if_pos ⟨hS, hn⟩

theorem loose_eq_none (hn : n ∈ s.inodes) : (s.table F i_ino S).loose n = none :=
  if_neg fun h => h.2 hn

omit [DecidableEq H] in
theorem filter_ne (hn : n ∉ xs) : xs.filter (· ≠ n) = xs :=
  List.filter_eq_self.mpr fun _ hm => decide_eq_true fun heq => hn (heq ▸ hm)

include hbuckets in
theorem exists_split (hinv : s.Inv S) (hn : n ∈ s.inodes) : ∃ as bs,
    (s.table F i_ino S).lists (F.bucket n (i_ino n)) = some (as ++ n :: bs) ∧
      (s.inodes.filter (· ≠ n)).filter (fun m => F.bucket m (i_ino m) = F.bucket n (i_ino n)) =
        as ++ bs := by
  have hmem : n ∈ s.inodes.filter fun m => F.bucket m (i_ino m) = F.bucket n (i_ino n) :=
    List.mem_filter.mpr ⟨hn, decide_eq_true rfl⟩
  have hnodup := hinv.nodup.filter fun m => F.bucket m (i_ino m) = F.bucket n (i_ino n)
  obtain ⟨as, bs, hsplit⟩ := List.append_of_mem hmem
  have hbucket := lists_bucket (s := s) F i_ino (hbuckets n (hinv.within n hn))
  refine ⟨as, bs, hbucket.trans (congrArg some hsplit), ?_⟩
  rw [List.filter_comm, hsplit]
  rw [hsplit, List.nodup_middle, List.nodup_cons, List.mem_append, not_or] at hnodup
  rw [List.filter_append, List.filter_cons_of_neg (by simp), filter_ne hnodup.1.1,
    filter_ne hnodup.1.2]

/-! ### What the calls make of the table -/

include hbuckets in
theorem table_insert (hmeant : HashCall.Meant S s (.insert n)) :
    (s.call (.insert n)).table F i_ino S = ((s.table F i_ino S).forget n).set
      (F.bucket n (i_ino n)) (n :: s.inodes.filter fun m => F.bucket m (i_ino m) =
        F.bucket n (i_ino n)) := by
  refine Table.ext (funext fun hd => ?_) (funext fun m => ?_)
  · change (if .first hd ∈ S then some ((n :: s.inodes).filter _) else none) =
      Function.update (s.table F i_ino S).lists _ _ hd
    rcases eq_or_ne hd (F.bucket n (i_ino n)) with rfl | hne
    · rw [Function.update_self, if_pos (hbuckets n hmeant.1),
        List.filter_cons_of_pos (by simp)]
    · rw [Function.update_of_ne hne, List.filter_cons_of_neg (by simpa using hne.symm)]
      rfl
  · change (if .next m ∈ S ∧ m ∉ n :: s.inodes then some _ else none) =
      Function.update (s.table F i_ino S).loose n none m
    rcases eq_or_ne m n with rfl | hne
    · rw [Function.update_self, if_neg fun h => h.2 List.mem_cons_self]
    · rw [Function.update_of_ne hne]
      exact if_congr (by rw [List.mem_cons, or_iff_right hne]) rfl rfl

theorem table_fake (hmeant : HashCall.Meant S s (.fake n)) :
    (s.call (.fake n)).table F i_ino S = (s.table F i_ino S).loosen n .fake := by
  refine Table.ext rfl (funext fun m => ?_)
  change (if .next m ∈ S ∧ m ∉ s.inodes then
    some (if m ∈ insert n s.fakes then .fake else .idle) else none) =
      Function.update (s.table F i_ino S).loose n (some .fake) m
  rcases eq_or_ne m n with rfl | hne
  · rw [Function.update_self, if_pos (show .next m ∈ S ∧ m ∉ s.inodes from hmeant),
      if_pos (Finset.mem_insert_self ..)]
  · have hfake : m ∈ insert n s.fakes ↔ m ∈ s.fakes := by
      rw [Finset.mem_insert, or_iff_right hne]
    rw [Function.update_of_ne hne]
    exact if_congr Iff.rfl (congrArg some (if_congr hfake rfl rfl)) rfl

theorem table_remove (hinv : s.Inv S) (hn : n ∈ s.inodes) (hsplit : (s.inodes.filter (· ≠ n)).filter
      (fun m => F.bucket m (i_ino m) = F.bucket n (i_ino n)) = xs)
    (hbucket : .first (F.bucket n (i_ino n)) ∈ S) : (s.call (.remove n)).table F i_ino S =
      ((s.table F i_ino S).set (F.bucket n (i_ino n)) xs).loosen n .idle := by
  refine Table.ext (funext fun hd => ?_) (funext fun m => ?_)
  · change (if .first hd ∈ S then some ((s.inodes.filter _).filter _) else none) =
      Function.update (s.table F i_ino S).lists _ _ hd
    rcases eq_or_ne hd (F.bucket n (i_ino n)) with rfl | hne
    · rw [Function.update_self, if_pos hbucket, hsplit]
    · rw [Function.update_of_ne hne, List.filter_comm, filter_ne fun hmem => hne ?_]
      · rfl
      · exact (of_decide_eq_true (List.mem_filter.mp hmem).2).symm
  · change (if .next m ∈ S ∧ m ∉ s.inodes.filter _ then some _ else none) =
      Function.update (s.table F i_ino S).loose n (some .idle) m
    rcases eq_or_ne m n with rfl | hne
    · rw [Function.update_self, if_pos ⟨hinv.within m hn, by simp⟩]
      exact congrArg some (if_neg (hinv.apart m hn))
    · rw [Function.update_of_ne hne]
      exact if_congr (by simp [hne]) rfl rfl

theorem table_remove_other (hn : n ∉ s.inodes) :
    (s.call (.remove n)).table F i_ino S = s.table F i_ino S := by
  have hsame : s.call (.remove n) = s :=
    congrArg (fun inodes => { s with inodes := inodes }) (filter_ne hn)
  rw [hsame]

/-! ### Runs -/

include hbuckets in
theorem tests (hinv : s.Inv S) (hrep : h.Represents S (s.table F i_ino S)) (hS : .next n ∈ S) :
    inodeUnhashed h n = .ok (n ∉ s.inodes ∧ n ∉ s.fakes) ∧ hlistFake h n = .ok (n ∈ s.fakes) := by
  by_cases hn : n ∈ s.inodes
  · obtain ⟨as, bs, hhd, -⟩ := exists_split hbuckets hinv hn
    have htests := node_tests_agree hrep
      (.inl ⟨_, _, hhd, List.mem_append_right _ List.mem_cons_self⟩)
    rw [loose_eq_none hn] at htests
    refine ⟨htests.1.trans ?_, htests.2.1.trans ?_⟩
    · simp [hn]
    · simp [hinv.apart n hn]
  · have hloose := loose_eq F i_ino hS hn
    have htests := node_tests_agree hrep (.inr (hloose ▸ Option.some_ne_none _))
    rw [hloose] at htests
    refine ⟨htests.1.trans ?_, htests.2.1.trans ?_⟩
    · by_cases hf : n ∈ s.fakes <;> simp [hn, hf]
    · by_cases hf : n ∈ s.fakes <;> simp [hf]

theorem remove_other (hrep : h.Represents S (s.table F i_ino S)) (hS : .next n ∈ S)
    (hn : n ∉ s.inodes) : removeInodeHash F h n = .ok h := by
  have hloose := loose_eq F i_ino hS hn
  have htests := node_tests_agree hrep (.inr (hloose ▸ Option.some_ne_none _))
  rw [hloose] at htests
  unfold removeInodeHash inodeUnhashed
  rw [htests.1, htests.2.1]
  by_cases hf : n ∈ s.fakes <;> simp [hf, bind, Except.bind, pure, Except.pure]

include hbuckets in
theorem run_call (hinv : s.Inv S) (hmeant : a.Meant S s)
    (hrep : h.Represents S (s.table F i_ino S)) : ∃ h', a.run F i_ino h = .ok h' ∧
      h.Within S h' ∧ h'.Represents S ((s.call a).table F i_ino S) := by
  cases a with
  | insert n =>
    have hstep := Step.addHead hmeant.1 (not_listed hmeant.2.1)
      (lists_bucket F i_ino (s := s) (hbuckets n hmeant.1))
    rw [← table_insert hbuckets hmeant] at hstep
    obtain ⟨h', hrun, hin, hrep'⟩ := hstep.represents ⟨n, .next n⟩ hrep
    exact ⟨h', (F.insert_eq ..).trans hrun, hin, hrep'⟩
  | fake n =>
    have hstep := Step.addFake (S := S) (loose_eq F i_ino hmeant.1 hmeant.2)
    rw [← table_fake hmeant] at hstep
    obtain ⟨h', hrun, hin, hrep'⟩ := hstep.represents ⟨n, .next n⟩ hrep
    exact ⟨h', hrun, hin, hrep'⟩
  | remove n =>
    -- the guards of `remove_inode_hash` pass just the inodes that are on a list
    by_cases hn : n ∈ s.inodes
    · obtain ⟨as, bs, hhd, hsplit⟩ := exists_split hbuckets hinv hn
      have hstep := Step.delInit (S := S) hhd
      rw [← table_remove hinv hn hsplit (hbuckets n (hinv.within n hn))] at hstep
      obtain ⟨h', hrun, hin, hrep'⟩ := hstep.represents ⟨n, .next n⟩ hrep
      have htests := tests hbuckets hinv hrep hmeant
      refine ⟨h', ?_, hin, hrep'⟩
      change removeInodeHash F h n = .ok h'
      unfold removeInodeHash
      rw [htests.1, htests.2]
      simp only [hn, hinv.apart n hn, F.remove_eq]
      exact hrun
    · rw [table_remove_other hn]
      exact ⟨h, remove_other hrep hmeant hn, .refl S h, hrep⟩

variable (F i_ino) in
theorem table_none : (⟨[], ∅⟩ : Hashed N).table F i_ino S = Table.zeroed S := by
  refine Table.ext rfl (funext fun n => ?_)
  change (if .next n ∈ S ∧ n ∉ [] then
    some (if n ∈ (∅ : Finset N) then .fake else .idle) else none) =
    if .next n ∈ S then some Loose.idle else none
  simp

include hbuckets in
theorem run_calls (hinv : s.Inv S) (hmeant : AllMeant S s calls)
    (hrep : h.Represents S (s.table F i_ino S)) : ∃ h',
      calls.foldlM (HashCall.run F i_ino) h = .ok h' ∧ h.Within S h' ∧
        (calls.foldl Hashed.call s).Inv S ∧
        h'.Represents S ((calls.foldl Hashed.call s).table F i_ino S) := by
  induction calls generalizing h s with
  | nil => exact ⟨h, rfl, .refl S h, hinv, hrep⟩
  | cons a calls ih =>
    obtain ⟨h₁, hrun, hin, hrep₁⟩ := run_call hbuckets hinv hmeant.1 hrep
    obtain ⟨h', hruns, hins, hinv', hrep'⟩ := ih (hinv.call hmeant.1) hmeant.2 hrep₁
    refine ⟨h', ?_, hin.trans hins, hinv', hrep'⟩
    rw [List.foldlM_cons, hrun]
    exact hruns

end Hashed

/-- Whatever calls there are, on any inodes and in any order: each list of the table has the inodes
that hash to it and have been inserted and not removed since, the last one first, the tests tell
which inodes are hashed, look so, or neither, and those that are not hashed may be removed for
nothing. -/
theorem inodes_hashed (hbuckets : ∀ n, .next n ∈ S → .first (F.bucket n (i_ino n)) ∈ S)
    (hrep : h.Represents S (Table.zeroed S)) (hmeant : AllMeant S ⟨[], ∅⟩ calls) :
    ∃ h' s, calls.foldlM (HashCall.run F i_ino) h = .ok h' ∧ h.Within S h' ∧
      calls.foldl Hashed.call ⟨[], ∅⟩ = s ∧
      (∀ hd, .first hd ∈ S →
        h'.IsList (.first hd) (s.inodes.filter fun n => F.bucket n (i_ino n) = hd)) ∧
      ∀ n, .next n ∈ S → inodeUnhashed h' n = .ok (n ∉ s.inodes ∧ n ∉ s.fakes) ∧
        hlistFake h' n = .ok (n ∈ s.fakes) ∧
        (n ∉ s.inodes → removeInodeHash F h' n = .ok h') := by
  rw [← Hashed.table_none F i_ino] at hrep
  obtain ⟨h', hrun, hin, hinv, hrep'⟩ := Hashed.run_calls hbuckets
    ⟨List.nodup_nil, fun _ hn => absurd hn List.not_mem_nil,
      fun _ hn => absurd hn List.not_mem_nil⟩ hmeant hrep
  refine ⟨h', _, hrun, hin, rfl, fun hd hhd => hrep'.isList (Hashed.lists_bucket F i_ino hhd),
    fun n hn => ?_⟩
  have htests := Hashed.tests hbuckets hinv hrep' hn
  exact ⟨htests.1, htests.2, Hashed.remove_other hrep' hn⟩

def oneList : InodeHashtable Unit Bool where
  bucket _ _ := ()
  insert h inode _ := hlistAddHead h inode ()
  remove h inode := hlistDelInit h inode
  insert_eq _ _ _ := rfl
  remove_eq _ _ := rfl

def oneListSlots : Finset (Slot Unit Bool) := {.first (), .next false, .next true}

def cleared : Heap Unit Bool :=
  ⟨fun _ => true, fun _ => true, fun _ => none, fun _ => none, fun _ => none⟩

theorem inodes_hashed_one : ∃ h', [.insert true, .fake false, .remove false].foldlM
      (HashCall.run oneList fun _ => 7) cleared = .ok h' ∧
    h'.IsList (.first ()) [true] ∧ inodeUnhashed h' false = .ok false := by
  have hbuckets : ∀ n, .next n ∈ oneListSlots → .first (oneList.bucket n 7) ∈ oneListSlots :=
    fun _ _ => Finset.mem_insert_self ..
  have hzeroed : cleared.Represents oneListSlots (Table.zeroed oneListSlots) :=
    represents_zeroed (by decide) (by decide) (by decide)
  have hmeant : AllMeant oneListSlots ⟨[], ∅⟩ [.insert true, .fake false, .remove false] := by
    simp [AllMeant, HashCall.Meant, Hashed.call, oneListSlots]
  obtain ⟨h', s, hrun, -, rfl, hlist, htests⟩ := inodes_hashed hbuckets hzeroed hmeant
  exact ⟨h', hrun, hlist () (by decide), (htests false (by decide)).1⟩

end GoodCommand.Fs
