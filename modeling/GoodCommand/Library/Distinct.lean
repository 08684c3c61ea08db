import Mathlib

/-! Stretches of a list without a repetition: the longest one at its end and the longest one
anywhere, as elements are added. -/

namespace GoodCommand

variable {α : Type*}

structure LastRun (l w : List α) : Prop where
  suffix : w <:+ l
  nodup : w.Nodup
  longest : ∀ v, v <:+ l → v.Nodup → v.length ≤ w.length

/-- `n` is the greatest length of an infix of `l` without a repetition. -/
structure LongestRun (l : List α) (n : ℕ) : Prop where
  attained : ∃ v, v <:+: l ∧ v.Nodup ∧ v.length = n
  bound : ∀ v, v <:+: l → v.Nodup → v.length ≤ n

variable {l w a b : List α} {c : α} {n : ℕ}

theorem lastRun_nil : LastRun ([] : List α) [] :=
  ⟨List.suffix_rfl, .nil, fun _ hv _ => hv.length_le⟩

theorem longestRun_nil : LongestRun ([] : List α) 0 :=
  ⟨⟨[], List.infix_rfl, .nil, rfl⟩, fun _ hv _ => hv.length_le⟩

theorem LastRun.concat_new (h : LastRun l w) (hc : c ∉ w) : LastRun (l ++ [c]) (w ++ [c]) := by
  refine ⟨List.suffix_concat_iff.mpr (.inr ⟨w, rfl, h.suffix⟩), ?_, fun v hv hnodup => ?_⟩
  · exact List.nodup_append.mpr ⟨h.nodup, List.nodup_singleton c, by rintro x hx _ hy rfl; simp_all⟩
  · rcases List.suffix_concat_iff.mp hv with rfl | ⟨t, rfl, ht⟩
    · simp
    · have hle := h.longest t ht (List.nodup_append.mp hnodup).1
      simpa using hle

theorem LastRun.concat_old (h : LastRun l (a ++ c :: b)) : LastRun (l ++ [c]) (b ++ [c]) := by
  have hsuffix : c :: b <:+ a ++ c :: b := List.suffix_append a _
  have hcb : (c :: b).Nodup := h.nodup.sublist hsuffix.sublist
  refine ⟨List.suffix_concat_iff.mpr (.inr ⟨b, rfl, ?_⟩), ?_, fun v hv hnodup => ?_⟩
  · exact (List.suffix_cons c b).trans (hsuffix.trans h.suffix)
  · exact (List.perm_append_singleton c b).nodup_iff.mpr hcb
  · rcases List.suffix_concat_iff.mp hv with rfl | ⟨t, rfl, ht⟩
    · simp
    · have hct : c ∉ t := fun hmem =>
        (List.nodup_append.mp hnodup).2.2 c hmem c (List.mem_singleton.mpr rfl) rfl
      by_contra hlt
      simp only [List.length_append, List.length_singleton, not_le] at hlt
      -- both end at the same place, so the longer one has the shorter in it
      have hcbt : c :: b <:+ t := List.suffix_of_suffix_length_le (hsuffix.trans h.suffix) ht
        (by simp only [List.length_cons]; omega)
      exact hct (hcbt.subset (List.mem_cons_self ..))

theorem LongestRun.concat (h : LongestRun l n) (hw : LastRun (l ++ [c]) w) :
    LongestRun (l ++ [c]) (max n w.length) := by
  constructor
  · rcases le_total n w.length with hle | hle
    · exact ⟨w, hw.suffix.isInfix, hw.nodup, (max_eq_right hle).symm⟩
    · obtain ⟨v, hv, hnodup, hlen⟩ := h.attained
      exact ⟨v, hv.trans (List.prefix_append l [c]).isInfix, hnodup,
        hlen.trans (max_eq_left hle).symm⟩
  · intro v hv hnodup
    rcases List.infix_concat_iff.mp hv with hsuf | hinf
    · exact (hw.longest v hsuf hnodup).trans (le_max_right _ _)
    · exact (h.bound v hinf hnodup).trans (le_max_left _ _)

end GoodCommand
