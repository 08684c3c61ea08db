import Mathlib

/-! Palindromic windows of a list around a centre. For `d = 0` the centre is the entry at `c`, for
`d = 1` it is the gap behind that entry. -/

namespace GoodCommand

variable {α : Type} {s w : List α} {c d t u : ℕ}

def Mirrored (s : List α) (c d t : ℕ) : Prop :=
  ∀ j < t, j ≤ c ∧ c + j + d < s.length ∧ s[c - j]? = s[c + j + d]?

/-- The entries of `s` that are at most `t` from the centre. -/
def window (s : List α) (c d t : ℕ) : List α := (s.drop (c + 1 - t)).take (2 * t + d - 1)

namespace Mirrored

theorem zero (s : List α) (c d : ℕ) : Mirrored s c d 0 := fun j hj => absurd hj (Nat.not_lt_zero j)

theorem mono (h : Mirrored s c d t) (hle : u ≤ t) : Mirrored s c d u :=
  fun j hj => h j (lt_of_lt_of_le hj hle)

theorem succ_iff : Mirrored s c d (t + 1) ↔
    Mirrored s c d t ∧ t ≤ c ∧ c + t + d < s.length ∧ s[c - t]? = s[c + t + d]? := by
  refine ⟨fun h => ⟨h.mono (Nat.le_succ t), h t (Nat.lt_succ_self t)⟩, fun ⟨h, hlast⟩ j hj => ?_⟩
  rcases Nat.lt_succ_iff_lt_or_eq.mp hj with hlt | rfl
  · exact h j hlt
  · exact hlast

theorem le_succ (h : Mirrored s c d t) : t ≤ c + 1 := by
  cases t with
  | zero => omega
  | succ t => exact Nat.succ_le_succ (h t (Nat.lt_succ_self t)).1

theorem le_length (h : Mirrored s c d t) (ht : 0 < t) : c + t + d ≤ s.length := by
  obtain ⟨-, hlt, -⟩ := h (t - 1) (by omega)
  omega

theorem length_window (h : Mirrored s c d t) (ht : 0 < t) :
    (window s c d t).length = 2 * t + d - 1 := by
  have hle := h.le_succ
  have hlen := h.le_length ht
  rw [window, List.length_take, List.length_drop]
  omega

theorem getElem?_eq (h : Mirrored s c d t) (hd : d ≤ 1) {a b : ℕ} (hab : a + b = 2 * c + d)
    (ha : c + 1 ≤ a + t) (hb : c + 1 ≤ b + t) : s[a]? = s[b]? := by
  rcases Nat.lt_or_ge c a with hlt | hle
  · obtain ⟨-, -, heq⟩ := h (c - b) (by omega)
    have hleft : c - (c - b) = b := by omega
    have hright : c + (c - b) + d = a := by omega
    rw [hleft, hright] at heq
    exact heq.symm
  · obtain ⟨-, -, heq⟩ := h (c - a) (by omega)
    have hleft : c - (c - a) = a := by omega
    have hright : c + (c - a) + d = b := by omega
    rwa [hleft, hright] at heq

theorem palindrome (h : Mirrored s c d t) (hd : d ≤ 1) : (window s c d t).Palindrome := by
  rcases Nat.eq_zero_or_pos t with rfl | ht
  · have hnil : window s c d 0 = [] := by
      rw [window, List.take_eq_nil_iff]
      omega
    rw [hnil]
    exact .nil
  have hlen := h.length_window ht
  have hle := h.le_succ
  refine List.Palindrome.of_reverse_eq (List.ext_getElem? fun k => ?_)
  rcases Nat.lt_or_ge k (2 * t + d - 1) with hk | hk
  · rw [List.getElem?_reverse (by omega), hlen, window, List.getElem?_take_of_lt (by omega),
      List.getElem?_take_of_lt hk, List.getElem?_drop, List.getElem?_drop]
    exact h.getElem?_eq hd (by omega) (by omega) (by omega)
  · rw [List.getElem?_eq_none (by rw [List.length_reverse]; omega),
      List.getElem?_eq_none (by omega)]

theorem of_palindrome (a b : List α) (hp : w.Palindrome) (hne : w ≠ []) :
    ∃ d t, d ≤ 1 ∧ 0 < t ∧ w.length = 2 * t + d - 1 ∧
      Mirrored (a ++ w ++ b) (a.length + (t - 1)) d t := by
  have hpos : 0 < w.length := List.length_pos_iff.mpr hne
  have hget : ∀ k < w.length, (a ++ w ++ b)[a.length + k]? = w[k]? := by
    intro k hk
    rw [List.getElem?_append_left (by rw [List.length_append]; omega),
      List.getElem?_append_right (by omega), Nat.add_sub_cancel_left]
  have hrev : ∀ j k, j + k + 1 = w.length → w[j]? = w[k]? := by
    intro j k hjk
    have hidx : w.length - 1 - j = k := by omega
    rw [← hidx, ← List.getElem?_reverse (by omega), hp.reverse_eq]
  have hmirror : ∀ t d, d ≤ 1 → 0 < t → w.length = 2 * t + d - 1 →
      Mirrored (a ++ w ++ b) (a.length + (t - 1)) d t := by
    intro t d hd ht hlen j hj
    have hleft : a.length + (t - 1) - j = a.length + (t - 1 - j) := by omega
    have hright : a.length + (t - 1) + j + d = a.length + (t - 1 + j + d) := by omega
    refine ⟨by omega, by simp only [List.length_append]; omega, ?_⟩
    rw [hleft, hright, hget _ (by omega), hget _ (by omega)]
    exact hrev _ _ (by omega)
  rcases Nat.even_or_odd' w.length with ⟨t, heven | hodd⟩
  · exact ⟨1, t, le_rfl, by omega, by omega, hmirror t 1 le_rfl (by omega) (by omega)⟩
  · exact ⟨0, t + 1, by omega, by omega, by omega,
      hmirror (t + 1) 0 (by omega) (by omega) (by omega)⟩

end Mirrored

/-! ### The longest palindrome -/

/-- Of the longest palindromes in `s`, the one that starts last is `w`, behind `pre`. -/
structure RightmostLongest (s pre w : List α) : Prop where
  isPrefix : pre ++ w <+: s
  palindrome : w.Palindrome
  longest : ∀ v, v <:+: s → v.Palindrome → v.length ≤ w.length
  rightmost : ∀ pre' w', pre' ++ w' <+: s → w'.Palindrome → w'.length = w.length →
    pre'.length ≤ pre.length

namespace RightmostLongest

variable {pre pre' w' : List α}

theorem isInfix (h : RightmostLongest s pre w) : w <:+: s :=
  (List.suffix_append pre w).isInfix.trans h.isPrefix.isInfix

theorem unique (h : RightmostLongest s pre w) (h' : RightmostLongest s pre' w') :
    pre = pre' ∧ w = w' := by
  have hlen : w.length = w'.length :=
    le_antisymm (h'.longest w h.isInfix h.palindrome) (h.longest w' h'.isInfix h'.palindrome)
  have hpos : pre.length = pre'.length :=
    le_antisymm (h'.rightmost pre w h.isPrefix h.palindrome hlen)
      (h.rightmost pre' w' h'.isPrefix h'.palindrome hlen.symm)
  have hsame : pre ++ w <+: pre' ++ w' := List.prefix_of_prefix_length_le h.isPrefix h'.isPrefix
    (by simp only [List.length_append, hlen, hpos]; exact le_rfl)
  exact List.append_inj (hsame.eq_of_length (by simp only [List.length_append, hlen, hpos])) hpos

theorem self (hp : s.Palindrome) : RightmostLongest s [] s where
  isPrefix := List.prefix_rfl
  palindrome := hp
  longest _ hv _ := hv.length_le
  rightmost pre' w' hpre _ hlen := by
    have hle := hpre.length_le
    rw [List.length_append] at hle
    simp only [List.length_nil]
    omega

/-- The window with the longest arms, around the last centre that has them. -/
theorem of_mirrored (hd : d ≤ 1) (ht : 0 < t) (hm : Mirrored s c d t)
    (hmax : ∀ c' < s.length, ∀ d' ≤ 1, ∀ t', Mirrored s c' d' t' → 2 * t' + d' ≤ 2 * t + d)
    (hlast : ∀ c' < s.length, Mirrored s c' d t → c' ≤ c) :
    RightmostLongest s (s.take (c + 1 - t)) (window s c d t) where
  isPrefix := by
    rw [window, ← List.take_add]
    exact List.take_prefix _ _
  palindrome := hm.palindrome hd
  longest v hv hp := by
    by_cases hne : v = []
    · rw [hne]
      exact Nat.zero_le _
    · obtain ⟨a, b, rfl⟩ := hv
      obtain ⟨d', t', hd', ht', hlen, hm'⟩ := Mirrored.of_palindrome a b hp hne
      have hle := hmax _ (by simp only [List.length_append]; omega) d' hd' t' hm'
      rw [hm.length_window ht]
      omega
  rightmost pre' w' hpre hp hlen := by
    rw [hm.length_window ht] at hlen
    obtain ⟨b, rfl⟩ := hpre
    obtain ⟨d', t', hd', ht', hlen', hm'⟩ :=
      Mirrored.of_palindrome pre' b hp (List.ne_nil_of_length_pos (by omega))
    -- the length tells on which side of the parity it lies
    obtain rfl : d' = d := by omega
    obtain rfl : t' = t := by omega
    have hle := hlast _ (by simp only [List.length_append]; omega) hm'
    have hbound := hm.le_length ht
    rw [List.length_take]
    omega

end RightmostLongest

end GoodCommand
