import Mathlib

/-! The stretches of a list between separators, and their concatenation with one separator between
each two. -/

namespace GoodCommand

variable {α : Type*} {sep : α}

theorem intercalate_concat {ws : List (List α)} (hne : ws ≠ []) (w : List α) :
    List.intercalate [sep] (ws ++ [w]) = List.intercalate [sep] ws ++ sep :: w := by
  induction ws with
  | nil => exact absurd rfl hne
  | cons v ws ih =>
    by_cases hnil : ws = []
    · subst hnil
      simp [List.intercalate]
    · rw [List.cons_append, List.intercalate_cons_of_ne_nil (by simp), ih hnil,
        List.intercalate_cons_of_ne_nil hnil]
      simp

theorem length_intercalate {ws : List (List α)} (hne : ws ≠ []) :
    (List.intercalate [sep] ws).length + 1 = (ws.map fun w => w.length + 1).sum := by
  induction ws using List.reverseRecOn with
  | nil => exact absurd rfl hne
  | append_singleton ws w ih =>
    by_cases hnil : ws = []
    · subst hnil
      simp [List.intercalate]
    · rw [intercalate_concat hnil, List.length_append, List.length_cons, List.map_append,
        List.sum_append, ← ih hnil]
      simp only [List.map_cons, List.map_nil, List.sum_cons, List.sum_nil]
      omega

theorem mem_intercalate {ws : List (List α)} {x : α} (h : x ∈ List.intercalate [sep] ws) :
    x = sep ∨ ∃ w ∈ ws, x ∈ w := by
  induction ws with
  | nil => cases h
  | cons v ws ih =>
    by_cases hnil : ws = []
    · subst hnil
      exact .inr ⟨v, by simp, by simpa using h⟩
    · rw [List.intercalate_cons_of_ne_nil hnil, List.append_assoc, List.mem_append] at h
      rcases h with hv | h
      · exact .inr ⟨v, by simp, hv⟩
      · rcases List.mem_cons.mp h with hsep | hrest
        · exact .inl hsep
        · rcases ih hrest with hsep | ⟨w, hw, hx⟩
          · exact .inl hsep
          · exact .inr ⟨w, List.mem_cons_of_mem _ hw, hx⟩

theorem subset_intercalate {ws : List (List α)} {w : List α} (h : w ∈ ws) :
    w ⊆ List.intercalate [sep] ws := by
  induction ws with
  | nil => cases h
  | cons v ws ih =>
    by_cases hnil : ws = []
    · subst hnil
      rw [List.mem_singleton.mp h, List.intercalate_singleton]
      exact List.Subset.refl v
    · rw [List.intercalate_cons_of_ne_nil hnil]
      rcases List.mem_cons.mp h with rfl | h
      · exact fun x hx => by simp [hx]
      · exact fun x hx => by simp [ih h hx]

section Words

variable [DecidableEq α]

/-- The maximal runs of elements that are not the separator. -/
def words (sep : α) (l : List α) : List (List α) := (l.splitOn sep).filter (· ≠ [])

theorem words_nil (sep : α) : words sep [] = [] := by simp [words]

theorem words_append_cons (xs ys : List α) :
    words sep (xs ++ sep :: ys) = words sep xs ++ words sep ys := by
  rw [words, List.splitOn_append_cons_self, List.filter_append, words, words]

theorem words_concat_sep (xs : List α) : words sep (xs ++ [sep]) = words sep xs := by
  rw [words_append_cons, words_nil, List.append_nil]

theorem words_of_notMem {w : List α} (h : sep ∉ w) (hne : w ≠ []) : words sep w = [w] := by
  rw [words, List.splitOn_eq_singleton h]
  simp [hne]

theorem subset_of_mem_words {l w : List α} (h : w ∈ words sep l) : w ⊆ l := by
  have hsub : w ⊆ List.intercalate [sep] (l.splitOn sep) :=
    subset_intercalate (List.mem_filter.mp h).1
  rwa [List.intercalate_splitOn] at hsub

theorem sum_words_le (l : List α) :
    ((words sep l).map fun w => w.length + 1).sum ≤ l.length + 1 := by
  have hall : (List.intercalate [sep] (l.splitOn sep)).length + 1 = _ :=
    length_intercalate (List.splitOn_ne_nil sep l)
  rw [List.intercalate_splitOn] at hall
  rw [hall]
  exact (List.filter_sublist.map _).sum_le_sum fun _ _ => Nat.zero_le _

theorem words_rdropWhile (l : List α) : words sep (l.rdropWhile (· = sep)) = words sep l := by
  induction l using List.reverseRecOn with
  | nil => rfl
  | append_singleton l c ih =>
    by_cases hc : c = sep
    · rw [List.rdropWhile_concat_pos _ _ _ (by simpa using hc), ih, hc, words_concat_sep]
    · rw [List.rdropWhile_concat_neg _ _ _ (by simpa using hc)]

theorem words_split {b w : List α} (hb : ∀ hne : b ≠ [], b.getLast hne = sep) (hw : sep ∉ w)
    (hne : w ≠ []) : words sep (b ++ w) = words sep b.dropLast ++ [w] := by
  by_cases hnil : b = []
  · subst hnil
    rw [List.nil_append, List.dropLast_nil, words_nil, List.nil_append, words_of_notMem hw hne]
  · conv_lhs => rw [← List.dropLast_append_getLast hnil, hb hnil]
    rw [List.append_assoc, List.singleton_append, words_append_cons, words_of_notMem hw hne]

end Words

end GoodCommand
