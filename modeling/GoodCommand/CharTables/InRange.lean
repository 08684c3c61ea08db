import GoodCommand.FrequencySort.FrequencySort
import GoodCommand.LongestSubstring.LengthOfLongestSubstring

/-! The tables that are indexed by a character: `map` of `lengthOfLongestSubstring`, of 256 entries,
and `pool` of `frequencySort`, of `CHAR_MAX`. -/

namespace GoodCommand.CharTables
open Fuel

variable {T : CharType} {s : CharString T}

/-- Some iteration of `lengthOfLongestSubstring(s)` accesses `map[c]`. -/
def MapAccess (s : CharString T) (c : ℤ) : Prop :=
  ∃ k st, Iterates (LongestSubstring.scanBody s) k ⟨.zero, .zero, .zero, List.replicate 256 0⟩ st ∧
    s.charAt st.stop = .ok c ∧ 0 ≠ c

/-- Some iteration of `frequencySort(s)` accesses `pool[c]`. -/
def PoolAccess (s : CharString T) (c : ℤ) : Prop :=
  ∃ pool k st, Arr.malloc (fun _ => ⟨0, CInt.zero⟩) T.max = .ok pool ∧
    Iterates (FrequencySort.countBody s) k (CInt.zero, pool) st ∧ s.charAt st.1 = .ok c ∧ c ≠ 0

def MapInRange (s : CharString T) : Prop := ∀ c, MapAccess s c → 0 ≤ c ∧ c ≤ 255

def PoolInRange (s : CharString T) : Prop := ∀ c, PoolAccess s c → 0 ≤ c ∧ c ≤ T.max - 1

theorem mem_take_of_charAt {i : CInt} {c : ℤ} (h : s.charAt i = .ok c) (hne : c ≠ 0) :
    c ∈ s.chars.take 2147483648 := by
  have hi := i.property.2
  unfold intMax at hi
  obtain ⟨n, hn, hget⟩ := Arr.exists_index_of_get h
  have hlt : n < s.chars.length := by
    by_contra hge
    rw [List.getElem?_append_right (not_lt.mp hge)] at hget
    exact hne (List.mem_singleton.mp (List.mem_of_getElem? hget))
  rw [List.getElem?_append_left hlt] at hget
  refine List.mem_of_getElem? (i := n) ?_
  rw [List.getElem?_take_of_lt (by omega), hget]

theorem exists_first {P : ℤ → Prop} (h : ¬ ∀ c ∈ s.chars.take 2147483648, P c) :
    ∃ pre c suf, s.chars = pre ++ c :: suf ∧ (pre.length : ℤ) ≤ intMax ∧ ¬ P c ∧
      ∀ d ∈ pre, P d := by
  classical
  push Not at h
  obtain ⟨c₀, hc₀, hbad⟩ := h
  have hsome : ((s.chars.take 2147483648).find? fun c => decide (¬ P c)).isSome := by
    rw [List.find?_isSome]
    exact ⟨c₀, hc₀, by simpa using hbad⟩
  obtain ⟨c, hc⟩ := Option.isSome_iff_exists.mp hsome
  obtain ⟨hPc, pre, rest, htake, hpre⟩ := List.find?_eq_some_iff_append.mp hc
  refine ⟨pre, c, rest ++ s.chars.drop 2147483648, ?_, ?_, by simpa using hPc, fun d hd => ?_⟩
  · have hsplit := List.take_append_drop 2147483648 s.chars
    rw [htake, List.append_assoc] at hsplit
    exact hsplit.symm
  · have hlen := congrArg List.length htake
    rw [List.length_take, List.length_append, List.length_cons] at hlen
    unfold intMax
    omega
  · simpa using hpre d hd

theorem char_bounds {c : ℤ} (h : c ∈ s.chars) : c ≠ 0 ∧ c ≤ T.max ∧ T.max ≤ 255 := by
  refine ⟨CharString.ne_zero h, (s.inRange c h).2, ?_⟩
  cases T <;> decide

theorem map_inRange_iff (s : CharString T) :
    MapInRange s ↔ ∀ c ∈ s.chars.take 2147483648, 0 ≤ c := by
  constructor
  · -- the iterations before the first negative character reach it
    intro h
    by_contra hbad
    obtain ⟨pre, c, suf, hs, hlen, hneg, hpre⟩ := exists_first hbad
    have hmem : ∀ d ∈ pre, d ∈ s.chars := fun d hd => by simp [hs, hd]
    obtain ⟨k, st, w, hiter, hscan⟩ := LongestSubstring.scanned_init.iterates
      (show s.chars = [] ++ pre ++ c :: suf from hs)
      (fun d hd => ⟨hpre d hd, by have := char_bounds (hmem d hd); omega⟩) hlen
    have hc : c ∈ s.chars := by simp [hs]
    exact hneg (h c ⟨k, st, hiter, CharString.charAt_of_append hs hscan.stop,
      (CharString.ne_zero hc).symm⟩).1
  · rintro h c ⟨k, st, -, hc, hne⟩
    have hmem := mem_take_of_charAt hc hne.symm
    have hbounds := char_bounds (List.mem_of_mem_take hmem)
    have := h c hmem
    omega

theorem pool_inRange_iff (s : CharString T) :
    PoolInRange s ↔ ∀ c ∈ s.chars.take 2147483648, 0 ≤ c ∧ c < T.max := by
  constructor
  · intro h
    by_contra hbad
    obtain ⟨pre, c, suf, hs, hlen, hout, hpre⟩ := exists_first hbad
    have hmem : ∀ d ∈ pre, d ∈ s.chars := fun d hd => by simp [hs, hd]
    have hpool := Arr.malloc_const (⟨0, CInt.zero⟩ : FrequencySort.Elemnt)
      (FrequencySort.max_toNat T).symm
    obtain ⟨k, i, hiter, hi⟩ := FrequencySort.count_iterates
      (show s.chars = [] ++ pre ++ c :: suf from hs)
      (show CInt.zero.val = ([] : List ℤ).length from rfl)
      (fun d hd => ⟨by have := char_bounds (hmem d hd); have := hpre d hd; omega, (hpre d hd).2⟩)
      hlen
    rw [FrequencySort.counted_nil] at hiter
    have hc : c ∈ s.chars := by simp [hs]
    have hrange := h c ⟨_, k, _, hpool, hiter, CharString.charAt_of_append hs hi,
      CharString.ne_zero hc⟩
    exact hout ⟨hrange.1, by omega⟩
  · rintro h c ⟨pool, k, st, -, -, hc, hne⟩
    have := h c (mem_take_of_charAt hc hne)
    omega

/-- The tables are indexed in range exactly when no character is negative or `CHAR_MAX`. -/
theorem tables_inRange_iff (s : CharString T) :
    MapInRange s ∧ PoolInRange s ↔ ∀ c ∈ s.chars.take 2147483648, 0 ≤ c ∧ c < T.max := by
  rw [map_inRange_iff, pool_inRange_iff]
  exact ⟨And.right, fun h => ⟨fun c hc => (h c hc).1, h⟩⟩

/-- A character that is -1 as a signed `char`, and `CHAR_MAX` of both types. -/
theorem tables_not_inRange :
    ¬ MapInRange (⟨[-1], by decide, by decide⟩ : CharString .signed) ∧
      ¬ PoolInRange (⟨[-1], by decide, by decide⟩ : CharString .signed) ∧
      ¬ PoolInRange (⟨[127], by decide, by decide⟩ : CharString .signed) ∧
      ¬ PoolInRange (⟨[255], by decide, by decide⟩ : CharString .unsigned) := by
  simp only [map_inRange_iff, pool_inRange_iff]
  decide

end GoodCommand.CharTables
