import GoodCommand.Fio.Columns

/-! Which files `get_fio_result` has a result for: those that name a direction of the transfer and
have, for that direction, numbers in all their jobs. The result has the sums of these. -/

namespace GoodCommand.Fio

variable {N : Type} {py : Numbers N} {rw job doc : Json N} {jobs : List (Json N)} {r r' : Result N}
  {n : N}

def addNum (py : Numbers N) (t : N) (x : Json N) : Except PyErr N :=
  match asNumber py x with
  | some y => py.add t y
  | none => .error .typeError

def addAt (py : Numbers N) (path : List (Json N)) (t : N) (job : Json N) : Except PyErr N := do
  addNum py t (← getPath py job path)

def sumAt (py : Numbers N) (path : List (Json N)) (t : N) (jobs : List (Json N)) :
    Except PyErr N :=
  jobs.foldlM (addAt py path) t

structure Totals (N : Type) where
  bw : N
  iops : N
  mean : N

def Totals.zero (py : Numbers N) : Totals N := ⟨py.ofNat 0, py.ofNat 0, py.ofNat 0⟩

/-- The jobs have numbers at the places that are read, and these add `t` up to `t'`. -/
structure Summed (py : Numbers N) (rw : Json N) (jobs : List (Json N)) (t t' : Totals N) :
    Prop where
  bw : sumAt py [rw, .str "bw"] t.bw jobs = .ok t'.bw
  iops : sumAt py [rw, .str "iops"] t.iops jobs = .ok t'.iops
  mean : sumAt py [rw, .str "lat_ns", .str "mean"] t.mean jobs = .ok t'.mean
  max : ∀ job ∈ jobs, ∃ v x, getPath py job [rw, .str "lat_ns", .str "max"] = .ok v ∧
    asNumber py v = some x

variable {t t' : Totals N}

theorem summed_nil : Summed py rw [] t t :=
  ⟨rfl, rfl, rfl, fun _ h => absurd h List.not_mem_nil⟩

theorem sumAt_singleton (path : List (Json N)) (u : N) (job : Json N) :
    sumAt py path u [job] = addAt py path u job := bind_pure _

theorem sumAt_singleton_iff {path : List (Json N)} {u s : N} :
    sumAt py path u [job] = .ok s ↔
      ∃ x, getPath py job path = .ok x ∧ addNum py u x = .ok s := by
  rw [sumAt_singleton]
  constructor
  · exact bind_ok
  · rintro ⟨x, hx, hs⟩
    rw [addAt, hx, ok_bind, hs]

theorem sumAt_cons_iff {path : List (Json N)} {u u' : N} :
    sumAt py path u (job :: jobs) = .ok u' ↔
      ∃ u₁, sumAt py path u [job] = .ok u₁ ∧ sumAt py path u₁ jobs = .ok u' := by
  rw [sumAt_singleton]
  constructor
  · exact foldlM_cons_ok
  · rintro ⟨u₁, hfirst, hrest⟩
    rw [sumAt, List.foldlM_cons, hfirst, ok_bind]
    exact hrest

theorem summed_cons_iff : Summed py rw (job :: jobs) t t' ↔
    ∃ t₁, Summed py rw [job] t t₁ ∧ Summed py rw jobs t₁ t' := by
  constructor
  · intro h
    obtain ⟨bw, hbw, hbw'⟩ := sumAt_cons_iff.mp h.bw
    obtain ⟨iops, hiops, hiops'⟩ := sumAt_cons_iff.mp h.iops
    obtain ⟨mean, hmean, hmean'⟩ := sumAt_cons_iff.mp h.mean
    obtain ⟨hmax, hmax'⟩ := List.forall_mem_cons.mp h.max
    exact ⟨⟨bw, iops, mean⟩, ⟨hbw, hiops, hmean, List.forall_mem_singleton.mpr hmax⟩,
      hbw', hiops', hmean', hmax'⟩
  · rintro ⟨t₁, h, h'⟩
    exact ⟨sumAt_cons_iff.mpr ⟨_, h.bw, h'.bw⟩, sumAt_cons_iff.mpr ⟨_, h.iops, h'.iops⟩,
      sumAt_cons_iff.mpr ⟨_, h.mean, h'.mean⟩,
      List.forall_mem_cons.mpr ⟨h.max _ List.mem_cons_self, h'.max⟩⟩

/-! ### The loop over the jobs -/

structure Tally (py : Numbers N) (n : N) (r : Result N) (t : Totals N) : Prop where
  bw : r.get? "bw_KiB" = some (.num t.bw)
  iops : r.get? "iops" = some (.num t.iops)
  mean : r.get? "lat_ns_mean" = some (.num t.mean)
  max : ∃ v x, r.get? "lat_ns_max" = some v ∧ asNumber py v = some x
  numjobs : r.get? "numjobs" = some (.num n)

theorem resultItem_eq {key : String} {v : Json N} (h : r.get? key = some v) :
    resultItem r key = .ok v := by rw [resultItem, h]

theorem addTo_eq {key : String} {u : N} (h : r.get? key = some (.num u)) (x : Json N) :
    addTo py r key x = (addNum py u x).map fun s => r.set key (.num s) := by
  rw [addTo, resultItem_eq h, ok_bind, pyAdd, addNum]
  cases asNumber py x with
  | none => rfl
  | some y =>
    show ((py.add u y).map Json.num >>= fun sum => pure (r.set key sum)) =
      (py.add u y).map fun s => r.set key (.num s)
    cases py.add u y <;> rfl

theorem of_addTo {key : String} {u : N} {x : Json N} (h : r.get? key = some (.num u))
    (hrun : addTo py r key x = .ok r') : ∃ s, addNum py u x = .ok s ∧ r' = r.set key (.num s) := by
  rw [addTo_eq h] at hrun
  obtain ⟨s, hs, heq⟩ := map_ok hrun
  exact ⟨s, hs, heq.symm⟩

def Totals.store (t : Totals N) (max : Json N) (r : Result N) : Result N :=
  (((r.set "bw_KiB" (.num t.bw)).set "iops" (.num t.iops)).set "lat_ns_mean" (.num t.mean)).set
    "lat_ns_max" max

theorem tally_store {v : Json N} {x : N} (hn : r.get? "numjobs" = some (.num n))
    (hv : asNumber py v = some x) : Tally py n (t.store v r) t where
  bw := by simp [Totals.store, Dict.get?_set]
  iops := by simp [Totals.store, Dict.get?_set]
  mean := by simp [Totals.store, Dict.get?_set]
  max := ⟨v, x, by simp [Totals.store, Dict.get?_set], hv⟩
  numjobs := by simp [Totals.store, Dict.get?_set, hn]

theorem pyGe_ok_iff {a b : Json N} {ge : Bool} : pyGe py a b = .ok ge ↔
    ∃ x y, asNumber py a = some x ∧ asNumber py b = some y ∧ py.ge x y = ge := by
  rw [pyGe]
  cases asNumber py a <;> cases asNumber py b <;> simp

theorem Tally.of_addJob (h : Tally py n r t) (hrun : addJob py rw r job = .ok r') :
    ∃ t', Summed py rw [job] t t' ∧ Tally py n r' t' := by
  obtain ⟨w, y, hw, hy⟩ := h.max
  obtain ⟨bwItem, hbwItem, hrun⟩ := bind_ok hrun
  obtain ⟨r₁, hr₁, hrun⟩ := bind_ok hrun
  obtain ⟨bw, hbw, rfl⟩ := of_addTo h.bw hr₁
  obtain ⟨iopsItem, hiopsItem, hrun⟩ := bind_ok hrun
  obtain ⟨r₂, hr₂, hrun⟩ := bind_ok hrun
  obtain ⟨iops, hiops, rfl⟩ := of_addTo (by simpa [Dict.get?_set] using h.iops) hr₂
  obtain ⟨meanItem, hmeanItem, hrun⟩ := bind_ok hrun
  obtain ⟨r₃, hr₃, hrun⟩ := bind_ok hrun
  obtain ⟨mean, hmean, rfl⟩ := of_addTo (by simpa [Dict.get?_set] using h.mean) hr₃
  obtain ⟨v, hv, hrun⟩ := bind_ok hrun
  rw [resultItem_eq (by simpa [Dict.get?_set] using hw), ok_bind] at hrun
  obtain ⟨ge, hge, hrun⟩ := bind_ok hrun
  cases hrun
  obtain ⟨x, y', hx, hy', -⟩ := pyGe_ok_iff.mp hge
  refine ⟨⟨bw, iops, mean⟩, ⟨?_, ?_, ?_, List.forall_mem_singleton.mpr ⟨v, x, hv, hx⟩⟩, ?_⟩
  · exact sumAt_singleton_iff.mpr ⟨_, hbwItem, hbw⟩
  · exact sumAt_singleton_iff.mpr ⟨_, hiopsItem, hiops⟩
  · exact sumAt_singleton_iff.mpr ⟨_, hmeanItem, hmean⟩
  · cases ge with
    | true => exact @tally_store _ _ _ _ ⟨bw, iops, mean⟩ _ _ h.numjobs hx
    | false => exact @tally_store _ _ _ _ ⟨bw, iops, mean⟩ _ _ h.numjobs hy

theorem Tally.exists_addJob (h : Tally py n r t) (hs : Summed py rw [job] t t') :
    ∃ r', addJob py rw r job = .ok r' ∧ Tally py n r' t' := by
  obtain ⟨w, y, hw, hy⟩ := h.max
  obtain ⟨v, x, hv, hx⟩ := hs.max job List.mem_cons_self
  obtain ⟨bwItem, hbwItem, hbw⟩ := sumAt_singleton_iff.mp hs.bw
  obtain ⟨iopsItem, hiopsItem, hiops⟩ := sumAt_singleton_iff.mp hs.iops
  obtain ⟨meanItem, hmeanItem, hmean⟩ := sumAt_singleton_iff.mp hs.mean
  have hge := pyGe_ok_iff.mpr ⟨x, y, hx, hy, rfl⟩
  have hmax : asNumber py (if py.ge x y then v else w) = some (if py.ge x y then x else y) := by
    split_ifs
    · exact hx
    · exact hy
  refine ⟨_, ?_, tally_store h.numjobs hmax⟩
  rw [addJob, hbwItem, ok_bind, addTo_eq h.bw, hbw]
  show (getPath py job _ >>= _) = _
  rw [hiopsItem, ok_bind, addTo_eq (by simpa [Dict.get?_set] using h.iops), hiops]
  show (getPath py job _ >>= _) = _
  rw [hmeanItem, ok_bind, addTo_eq (by simpa [Dict.get?_set] using h.mean), hmean]
  show (getPath py job _ >>= _) = _
  rw [hv, ok_bind, resultItem_eq (by simpa [Dict.get?_set] using hw), ok_bind, hge, ok_bind]
  rfl

theorem Tally.of_addJobs (h : Tally py n r t) (hrun : jobs.foldlM (addJob py rw) r = .ok r') :
    ∃ t', Summed py rw jobs t t' ∧ Tally py n r' t' := by
  induction jobs generalizing r t with
  | nil =>
    cases hrun
    exact ⟨t, summed_nil, h⟩
  | cons job jobs ih =>
    obtain ⟨r₁, hfirst, hrest⟩ := foldlM_cons_ok hrun
    obtain ⟨t₁, hs, h₁⟩ := h.of_addJob hfirst
    obtain ⟨t', hs', h'⟩ := ih h₁ hrest
    exact ⟨t', summed_cons_iff.mpr ⟨t₁, hs, hs'⟩, h'⟩

theorem Tally.exists_addJobs (h : Tally py n r t) (hs : Summed py rw jobs t t') :
    ∃ r', jobs.foldlM (addJob py rw) r = .ok r' ∧ Tally py n r' t' := by
  induction jobs generalizing r t with
  | nil =>
    obtain ⟨bw, iops, mean⟩ := t'
    obtain rfl := Except.ok.inj hs.bw
    obtain rfl := Except.ok.inj hs.iops
    obtain rfl := Except.ok.inj hs.mean
    exact ⟨r, rfl, h⟩
  | cons job jobs ih =>
    obtain ⟨t₁, hone, hrest⟩ := summed_cons_iff.mp hs
    obtain ⟨r₁, hfirst, h₁⟩ := h.exists_addJob hone
    obtain ⟨r', hrun, h'⟩ := ih h₁ hrest
    exact ⟨r', by rw [List.foldlM_cons, hfirst, ok_bind, hrun], h'⟩

/-! ### The whole file -/

/-- The file names `rw`, and its jobs have numbers for it that can be added up and averaged. -/
inductive Measured (py : Numbers N) (doc : Json N) : Prop
  | intro {members : List (String × Json N)} {rw value : Json N} {jobs : List (Json N)}
      {t : Totals N} {mean : N} :
    getItem py doc (.str "global options") = .ok (.obj members) →
    getItem py (.obj members) (.str "rw") = .ok rw →
    getItem py doc (.str "jobs") = .ok value → iterate value = .ok jobs →
    Summed py (jobRw rw) jobs (.zero py) t → py.div t.mean (py.ofNat jobs.length) = .ok mean →
    Measured py doc

theorem addOption_ok_iff {members : List (String × Json N)} (r : Result N) (option : Json N) :
    (∃ r', addOption py (.obj members) r option = .ok r') ↔
      ∃ key v, option = .str key ∧ (Dict.ofPairs members).get? key = some v := by
  constructor
  · rintro ⟨r', h⟩
    obtain ⟨value, hvalue, -⟩ := bind_ok h
    cases option with
    | str key =>
      cases hget : (Dict.ofPairs members).get? key with
      | some v => exact ⟨key, v, rfl, hget⟩
      | none =>
        simp only [getItem, hget] at hvalue
        cases hvalue
    | null => cases hvalue
    | bool b => cases hvalue
    | num x => cases hvalue
    | arr items => cases hvalue
    | obj members => cases hvalue
  · rintro ⟨key, v, rfl, hget⟩
    refine ⟨r.set key v, ?_⟩
    simp only [addOption, getItem, hget]
    rfl

theorem exists_addOptions (members : List (String × Json N)) (r : Result N) :
    ∃ r', ((Dict.ofPairs members).keys.map Json.str).foldlM (addOption py (.obj members)) r =
      .ok r' := by
  refine (foldlM_ok_iff addOption_ok_iff _ r).mpr fun option hmem => ?_
  obtain ⟨key, hkey, rfl⟩ := List.mem_map.mp hmem
  obtain ⟨i, hi⟩ := List.getElem?_of_mem hkey
  obtain ⟨v, -, hget⟩ := Dict.values_getElem? hi
  exact ⟨key, v, rfl, hget⟩

theorem tally_start (r : Result N) (n : N) :
    Tally py n ((Totals.zero py).store (.num (py.ofNat 0)) (r.set "numjobs" (.num n))) (.zero py) :=
  tally_store (by simp [Dict.get?_set]) rfl

/-- `get_fio_result` raises no exception on a parsed file exactly when its jobs are measured. -/
theorem fioResultOf_ok_iff (jsonFile : String) :
    (∃ r, fioResultOf py jsonFile doc = .ok r) ↔ Measured py doc := by
  constructor
  · rintro ⟨r, h⟩
    obtain ⟨globalOptions, hopts, h⟩ := bind_ok h
    obtain ⟨items, hitems, h⟩ := bind_ok h
    obtain ⟨r₁, hadd, h⟩ := bind_ok h
    obtain ⟨value, hvalue, h⟩ := bind_ok h
    obtain ⟨jobs, hjobs, h⟩ := bind_ok h
    obtain ⟨rw, hrw, h⟩ := bind_ok h
    obtain ⟨r₂, hrun, h⟩ := bind_ok h
    obtain ⟨t, hs, htally⟩ := (tally_start r₁ (py.ofNat jobs.length)).of_addJobs hrun
    rw [resultItem_eq htally.mean, ok_bind, resultItem_eq htally.numjobs, ok_bind] at h
    obtain ⟨_, hdiv, -⟩ := bind_ok h
    obtain ⟨mean, hmean, -⟩ := map_ok hdiv
    obtain ⟨members, rfl⟩ := exists_members hrw
    exact .intro hopts hrw hvalue hjobs hs hmean
  · intro h
    cases h with
    | @intro members rw value jobs t mean hopts hrw hvalue hjobs hs hmean =>
      obtain ⟨r₁, hadd⟩ := @exists_addOptions _ py members
        (Dict.empty.set "host_name" (.str (hostName jsonFile)))
      obtain ⟨r₂, hrun, htally⟩ :=
        (tally_start r₁ (py.ofNat jobs.length)).exists_addJobs hs
      refine ⟨r₂.set "lat_ns_mean" (.num mean), ?_⟩
      have hitems : iterate (.obj members) = .ok ((Dict.ofPairs members).keys.map Json.str) := rfl
      have hdiv : pyDiv py (.num t.mean) (.num (py.ofNat jobs.length)) = .ok (.num mean) :=
        congrArg (Except.map Json.num) hmean
      unfold fioResultOf
      rw [hopts, ok_bind, hitems, ok_bind, hadd, ok_bind, hvalue, ok_bind, hjobs, ok_bind, hrw,
        ok_bind]
      refine (congrArg (· >>= _) hrun).trans ?_
      rw [ok_bind, resultItem_eq htally.mean, ok_bind, resultItem_eq htally.numjobs, ok_bind, hdiv]
      rfl

end GoodCommand.Fio
