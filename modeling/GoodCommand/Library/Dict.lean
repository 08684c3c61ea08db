import Mathlib

/-! Dictionaries that iterate in the order in which their keys were first set. -/

namespace GoodCommand

structure Dict (κ ν : Type) where
  entries : List (κ × ν)
  nodup : (entries.map Prod.fst).Nodup

namespace Dict

variable {κ ν : Type}

def empty : Dict κ ν := ⟨[], List.nodup_nil⟩

def keys (d : Dict κ ν) : List κ := d.entries.map Prod.fst

def values (d : Dict κ ν) : List ν := d.entries.map Prod.snd

theorem keys_nodup (d : Dict κ ν) : d.keys.Nodup := d.nodup

variable [DecidableEq κ]

def get? (d : Dict κ ν) (k : κ) : Option ν := (d.entries.find? fun e => e.1 = k).map Prod.snd

def setEntries (k : κ) (v : ν) : List (κ × ν) → List (κ × ν)
  | [] => [(k, v)]
  | e :: es => if e.1 = k then (k, v) :: es else e :: setEntries k v es

theorem keys_setEntries (k : κ) (v : ν) (es : List (κ × ν)) :
    (setEntries k v es).map Prod.fst =
      if k ∈ es.map Prod.fst then es.map Prod.fst else es.map Prod.fst ++ [k] := by
  induction es with
  | nil => simp [setEntries]
  | cons e es ih =>
    by_cases he : e.1 = k
    · simp [setEntries, he]
    · simp only [setEntries, if_neg he, List.map_cons, ih, List.mem_cons, Ne.symm he, false_or]
      split <;> simp

def set (d : Dict κ ν) (k : κ) (v : ν) : Dict κ ν where
  entries := setEntries k v d.entries
  nodup := by
    rw [keys_setEntries]
    split
    · exact d.nodup
    · next hk => exact List.nodup_append_comm.mp (by simpa using ⟨by simpa using hk, d.nodup⟩)

/-- The dictionary of a list of pairs: the last value set for a key is the one kept. -/
def ofPairs (ps : List (κ × ν)) : Dict κ ν := ps.foldl (fun d p => d.set p.1 p.2) empty

/-- Key views are compared as sets. -/
def sameKeys (d e : Dict κ ν) : Bool := d.keys.length = e.keys.length ∧ ∀ k ∈ d.keys, k ∈ e.keys

/-! ### Keys -/

theorem keys_set (d : Dict κ ν) (k : κ) (v : ν) :
    (d.set k v).keys = if k ∈ d.keys then d.keys else d.keys ++ [k] := keys_setEntries k v d.entries

theorem sameKeys_iff_perm {d e : Dict κ ν} : d.sameKeys e = true ↔ d.keys.Perm e.keys := by
  simp only [sameKeys, decide_eq_true_eq]
  constructor
  · rintro ⟨hlen, hsub⟩
    exact (d.keys_nodup.subperm hsub).perm_of_length_le hlen.ge
  · exact fun h => ⟨h.length_eq, fun k hk => h.subset hk⟩

theorem sameKeys_refl (d : Dict κ ν) : d.sameKeys d = true := sameKeys_iff_perm.mpr (.refl _)

/-! ### Values by place and by key -/

theorem get?_of_getElem? {d : Dict κ ν} {i : ℕ} {e : κ × ν} (h : d.entries[i]? = some e) :
    d.get? e.1 = some e.2 := by
  have hnodup := d.nodup
  unfold get?
  generalize d.entries = es at h hnodup
  induction es generalizing i with
  | nil => cases h
  | cons e' es ih =>
    rw [List.map_cons, List.nodup_cons] at hnodup
    cases i with
    | zero =>
      obtain rfl : e' = e := by simpa using h
      simp
    | succ i =>
      have hes : es[i]? = some e := by simpa using h
      have hne : e'.1 ≠ e.1 := by
        intro heq
        exact hnodup.1 (heq ▸ List.mem_map_of_mem (List.mem_of_getElem? hes))
      rw [List.find?_cons_of_neg (by simpa using hne)]
      exact ih hes hnodup.2

theorem values_getElem? {d : Dict κ ν} {i : ℕ} {k : κ} (h : d.keys[i]? = some k) :
    ∃ v, d.values[i]? = some v ∧ d.get? k = some v := by
  simp only [keys, List.getElem?_map, Option.map_eq_some_iff] at h
  obtain ⟨e, he, rfl⟩ := h
  exact ⟨e.2, by simp [values, he], get?_of_getElem? he⟩

theorem find?_setEntries (j k : κ) (v : ν) (es : List (κ × ν)) :
    ((setEntries k v es).find? fun e => e.1 = j).map Prod.snd =
      if j = k then some v else (es.find? fun e => e.1 = j).map Prod.snd := by
  induction es with
  | nil => by_cases hjk : j = k <;> simp [setEntries, hjk, Ne.symm]
  | cons e es ih =>
    rw [setEntries]
    by_cases he : e.1 = k
    · by_cases hjk : j = k
      · simp [if_pos he, hjk]
      · simp [he, hjk, Ne.symm hjk]
    · rw [if_neg he]
      by_cases hej : e.1 = j
      · have hjk : j ≠ k := hej ▸ he
        simp [hej, hjk]
      · simpa [hej] using ih

theorem get?_set (d : Dict κ ν) (j k : κ) (v : ν) :
    (d.set k v).get? j = if j = k then some v else d.get? j := find?_setEntries j k v d.entries

/-- Every place holds the same key in `d` as in `e`, or two keys with the same value in `e`. -/
def KeepsOrder (d e : Dict κ ν) : Prop :=
  ∀ (i : ℕ) k k', d.keys[i]? = some k → e.keys[i]? = some k' → k = k' ∨ e.get? k = e.get? k'

theorem keepsOrder_of_keys_eq {d e : Dict κ ν} (h : d.keys = e.keys) : KeepsOrder d e := by
  intro i k k' hk hk'
  rw [h, hk'] at hk
  exact .inl (Option.some.inj hk).symm

theorem values_under_keys_iff {d e : Dict κ ν} (h : d.sameKeys e = true) :
    (∀ (i : ℕ) k, d.keys[i]? = some k → ∃ v, e.values[i]? = some v ∧ e.get? k = some v) ↔
      KeepsOrder d e := by
  have hperm := sameKeys_iff_perm.mp h
  constructor
  · intro hcells i k k' hk hk'
    obtain ⟨v, hv, hget⟩ := hcells i k hk
    obtain ⟨v', hv', hget'⟩ := values_getElem? hk'
    rw [hv] at hv'
    exact .inr (by rw [hget, hget', hv'])
  · intro horder i k hk
    obtain ⟨hi, -⟩ := List.getElem?_eq_some_iff.mp hk
    obtain ⟨k', hk'⟩ : ∃ k', e.keys[i]? = some k' :=
      ⟨_, List.getElem?_eq_getElem (hperm.length_eq ▸ hi)⟩
    obtain ⟨v, hv, hget⟩ := values_getElem? hk'
    refine ⟨v, hv, ?_⟩
    rcases horder i k k' hk hk' with rfl | heq
    · exact hget
    · exact heq.trans hget

end Dict

end GoodCommand
