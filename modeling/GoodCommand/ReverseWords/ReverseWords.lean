import GoodCommand.Library.Words
import GoodCommand.ReverseWords.Defs

/-! `reverseWords` copies the words of its argument from the last to the first. -/

namespace GoodCommand.ReverseWords
open Fuel

variable {s : CString}

/-! ### The inner loops -/

theorem returns_back {body : CInt → Prog OutOfBounds (Ctl CInt CInt)} {p : Char → Bool}
    (hend : ∀ i : CInt, i.val = -1 → body i = pure (.exit i))
    (hturn : ∀ (i : CInt) c, 0 ≤ i.val → charAt s i = .ok c →
      body i = pure (if p c then .next (CInt.wrap (i.val - 1)) else .exit i))
    {front : List Char} (hfront : front <+: s.chars) {i : CInt} (hi : i.val = front.length - 1) :
    ∃ j, Returns (loop body i) j ∧ j.val = (front.rdropWhile p).length - 1 := by
  induction front using List.reverseRecOn generalizing i with
  | nil => exact ⟨i, returns_loop_exit (returns_of_eq (hend i hi)), hi⟩
  | append_singleton front c ih =>
    obtain ⟨rest, hrest⟩ := hfront
    have hidx : i.val = front.length := by
      rw [hi, List.length_append, List.length_singleton]
      omega
    have hchar : charAt s i = .ok c := by
      rw [charAt, ← hrest, List.append_assoc, List.append_assoc]
      exact Arr.get_append_cons front _ c hidx
    have hnonneg : 0 ≤ i.val := hidx ▸ Int.natCast_nonneg _
    have hbody := hturn i c hnonneg hchar
    by_cases hc : p c = true
    · rw [if_pos hc] at hbody
      rw [List.rdropWhile_concat_pos _ _ _ hc]
      obtain ⟨j, hret, hj⟩ := ih ((List.prefix_append front [c]).trans ⟨rest, hrest⟩)
        (i := CInt.wrap (i.val - 1)) (by rw [CInt.wrap_pred hnonneg, hidx])
      exact ⟨j, returns_loop_next (returns_of_eq hbody) hret, hj⟩
    · rw [if_neg hc] at hbody
      rw [List.rdropWhile_concat_neg _ _ _ hc]
      exact ⟨i, returns_loop_exit (returns_of_eq hbody), hi⟩

theorem returns_skip {front : List Char} (hfront : front <+: s.chars) {i : CInt}
    (hi : i.val = front.length - 1) :
    ∃ j, Returns (loop (skipBody s) i) j ∧ j.val = (front.rdropWhile (· = ' ')).length - 1 := by
  refine returns_back (fun i hi => by simp [skipBody, hi]) (fun i c hnonneg hc => ?_) hfront hi
  have hne : i.val ≠ -1 := by omega
  by_cases hsp : c = ' ' <;> simp [skipBody, hne, hc, hsp]

theorem returns_word {front : List Char} (hfront : front <+: s.chars) {i : CInt}
    (hi : i.val = front.length - 1) :
    ∃ j, Returns (loop (wordBody s) i) j ∧ j.val = (front.rdropWhile (· ≠ ' ')).length - 1 := by
  refine returns_back (fun i hi => by simp [wordBody, hi]) (fun i c hnonneg hc => ?_) hfront hi
  by_cases hsp : c = ' ' <;> simp [wordBody, hnonneg, hc, hsp]

/-! ### Writing a word -/

def cost (ws : List (List Char)) : ℕ := (ws.map fun w => w.length + 1).sum

theorem cost_concat (ws : List (List Char)) (w : List Char) :
    cost (ws ++ [w]) = cost ws + w.length + 1 := by
  simp [cost, add_assoc]

theorem length_join {ws : List (List Char)} (hne : ws ≠ []) :
    (List.intercalate [' '] ws).length + 1 = cost ws := length_intercalate hne

theorem set_buffer {cap : ℕ} {txt : List Char} (h : txt.length < cap) (c : Char) :
    Arr.set (buffer cap txt) txt.length c = .ok (buffer cap (txt ++ [c])) := by
  obtain ⟨k, hk⟩ : ∃ k, cap - txt.length = k + 1 := ⟨cap - txt.length - 1, by omega⟩
  have hk' : cap - (txt ++ [c]).length = k := by
    rw [List.length_append, List.length_singleton]
    omega
  rw [buffer, buffer, hk, hk', List.replicate_succ, Arr.set_append_cons _ _ _ _ rfl]
  simp

theorem strncpy_buffer {cap : ℕ} {txt w src : List Char} (h : txt.length + w.length ≤ cap) {j n : ℤ}
    (hj : j = txt.length) (hn : n = w.length) :
    strncpy (buffer cap txt) j (w ++ src) n = .ok (buffer cap (txt ++ w)) := by
  subst hj hn
  have hfill : w.length - (w.length + src.length) = 0 := by omega
  simp only [strncpy, Int.natCast_nonneg, and_self, if_true, Int.toNat_natCast, List.take_left,
    List.length_append, hfill, List.replicate_zero, List.append_nil]
  exact store_buffer h

theorem write_word {cap : ℕ} {ws : List (List Char)} {w : List Char} (src : List Char)
    (hws : ∀ v ∈ ws, v ≠ []) (hroom : cost ws + w.length ≤ cap) (hcap : (cost ws : ℤ) ≤ intMax)
    {j : CInt} (hj : j.val = (List.intercalate [' '] ws).length) {n : ℤ} (hn : n = w.length) :
    ∃ r j', separate (buffer cap (List.intercalate [' '] ws)) j = .ok (r, j') ∧
      strncpy r j' (w ++ src) n = .ok (buffer cap (List.intercalate [' '] (ws ++ [w]))) ∧
      j'.val + w.length = (List.intercalate [' '] (ws ++ [w])).length := by
  by_cases hnil : ws = []
  · subst hnil
    rw [List.intercalate_nil] at hj
    have hzero : ¬ j.val ≠ 0 := not_not.mpr hj
    have hfit : ([] : List Char).length + w.length ≤ cap := by simpa [cost] using hroom
    rw [List.nil_append, List.intercalate_singleton, List.intercalate_nil, separate, if_neg hzero]
    exact ⟨_, _, rfl, strncpy_buffer hfit hj hn, by rw [hj]; simp⟩
  · have hlen := length_join hnil
    have hpos : j.val ≠ 0 := by
      obtain ⟨v, vs, rfl⟩ := List.exists_cons_of_ne_nil hnil
      have hv := List.length_pos_of_ne_nil (hws v (by simp))
      simp only [cost, List.map_cons, List.sum_cons] at hlen
      omega
    have hconcat : List.intercalate [' '] (ws ++ [w]) = List.intercalate [' '] ws ++ ' ' :: w :=
      intercalate_concat hnil w
    have hsep : (CInt.wrap (j.val + 1)).val = (List.intercalate [' '] ws ++ [' ']).length := by
      have hsum : j.val + 1 = (List.intercalate [' '] ws ++ [' ']).length := by
        rw [hj, List.length_append]
        rfl
      rw [hsum]
      refine CInt.wrap_natCast ?_
      rwa [List.length_append, List.length_singleton, hlen]
    refine ⟨buffer cap (List.intercalate [' '] ws ++ [' ']), CInt.wrap (j.val + 1), ?_, ?_, ?_⟩
    · have hset := set_buffer (show (List.intercalate [' '] ws).length < cap by omega) ' '
      rw [separate, if_pos hpos, hj, hset]
      rfl
    · have hfit : (List.intercalate [' '] ws ++ [' ']).length + w.length ≤ cap := by
        rw [List.length_append, List.length_singleton]
        omega
      rw [hconcat, List.append_cons (List.intercalate [' '] ws) ' ' w]
      exact strncpy_buffer hfit hsep hn
    · rw [hsep, hconcat]
      simp only [List.length_append, List.length_cons, List.length_nil]
      push_cast
      omega

/-! ### The outer loop -/

structure Reversing (s : CString) (cap : ℕ) (st : Scan) (ws : List (List Char)) : Prop where
  i_lt : st.i.val < s.len
  words : words ' ' s.chars = words ' ' (s.chars.take (st.i.val + 1).toNat) ++ ws.reverse
  r : st.r = buffer cap (List.intercalate [' '] ws)
  j : st.j.val = (List.intercalate [' '] ws).length
  nonempty : ∀ w ∈ ws, w ≠ []
  cost : cost ws + st.i.val + 1 ≤ s.len

theorem Reversing.start {len : CInt} (hlen : len.val = s.len) (cap : ℕ) :
    Reversing s cap (start len (List.replicate cap '\x00')) [] := by
  have hi : (CInt.wrap (len.val - 1)).val = s.len - 1 := by
    have hle : len.val ≤ intMax := len.property.2
    unfold CString.len at hlen ⊢
    rw [hlen] at hle ⊢
    exact CInt.wrap_of_fits ⟨by unfold intMin; omega, by omega⟩
  constructor <;> simp [ReverseWords.start, ReverseWords.cost, hi, CString.len, CInt.zero, buffer]

theorem Reversing.done {cap : ℕ} {st : Scan} {ws : List (List Char)} (h : Reversing s cap st ws)
    (hfront : GoodCommand.words ' ' (s.chars.take (st.i.val + 1).toNat) = []) :
    st.r = buffer cap (List.intercalate [' '] (GoodCommand.words ' ' s.chars).reverse) := by
  rw [h.words, hfront, List.nil_append, List.reverse_reverse]
  exact h.r

theorem findBegin_eq {b w suf : List Char} (hs : s.chars = b ++ w ++ suf)
    (hb : ∀ hne : b ≠ [], b.getLast hne = ' ') {i : CInt} (hi : i.val = b.length - 1)
    (hfit : (b.length : ℤ) ≤ intMax) (wordBegin : CInt) :
    ∃ v, findBegin s i wordBegin = .ok v ∧ v.val = b.length := by
  by_cases hnil : b = []
  · subst hnil
    have hstart : i.val = -1 := by simpa using hi
    exact ⟨.zero, by rw [findBegin, if_pos hstart]; rfl, rfl⟩
  · have hpos := List.length_pos_of_ne_nil hnil
    have hne : ¬ i.val = -1 := by omega
    have hchar : charAt s i = .ok ' ' := by
      have hsplit := List.dropLast_append_getLast hnil
      rw [hb hnil] at hsplit
      rw [charAt, hs, ← hsplit, List.append_assoc, List.append_assoc, List.append_assoc]
      exact Arr.get_append_cons b.dropLast _ ' ' (by rw [hi]; simp; omega)
    have hsucc : i.val + 1 = b.length := by omega
    refine ⟨CInt.wrap (i.val + 1), ?_, by rw [hsucc]; exact CInt.wrap_natCast hfit⟩
    rw [findBegin, if_neg hne, hchar]
    rfl

structure LastWord (front b w : List Char) : Prop where
  skip : front.rdropWhile (· = ' ') = b ++ w
  word : (b ++ w).rdropWhile (· ≠ ' ') = b
  nonempty : w ≠ []
  space : ∀ hne : b ≠ [], b.getLast hne = ' '
  words : words ' ' front = words ' ' b.dropLast ++ [w]

theorem exists_last_word (front : List Char) :
    front.rdropWhile (· = ' ') = [] ∧ words ' ' front = [] ∨ ∃ b w, LastWord front b w := by
  by_cases hnil : front.rdropWhile (· = ' ') = []
  · exact .inl ⟨hnil, by rw [← words_rdropWhile, hnil, words_nil]⟩
  · right
    have hlast := List.rdropWhile_last_not _ _ hnil
    generalize hfront : front.rdropWhile (· = ' ') = a at hnil hlast
    have hsplit := List.rdropWhile_append_rtakeWhile (p := (· ≠ ' ')) (l := a)
    have hne : a.rtakeWhile (· ≠ ' ') ≠ [] := by
      rw [ne_eq, List.rtakeWhile_eq_nil_iff]
      exact fun h => h hnil (by simpa using hlast)
    have hmem : ' ' ∉ a.rtakeWhile (· ≠ ' ') := fun h => by
      simpa using List.mem_rtakeWhile_imp h
    have hb : ∀ h : a.rdropWhile (· ≠ ' ') ≠ [], (a.rdropWhile (· ≠ ' ')).getLast h = ' ' :=
      fun h => by simpa using List.rdropWhile_last_not _ _ h
    refine ⟨a.rdropWhile (· ≠ ' '), a.rtakeWhile (· ≠ ' '), hfront.trans hsplit.symm,
      by rw [hsplit], hne, hb, ?_⟩
    rw [← words_split hb hmem hne, hsplit, ← hfront, words_rdropWhile]

theorem Reversing.copy {cap : ℕ} {st : Scan} {ws : List (List Char)} {front b w : List Char}
    (h : Reversing s cap st ws) (hcap : s.chars.length ≤ cap)
    (hlen : (s.chars.length : ℤ) ≤ intMax) (hi : 0 ≤ st.i.val) (hpre : front <+: s.chars)
    (hidx : st.i.val = front.length - 1) (hlast : LastWord front b w) :
    ∃ st', Returns (scanBody s st) (.next st') ∧ st'.i.val = b.length - 1 - 1 ∧
      st'.r = buffer cap (List.intercalate [' '] (ws ++ [w])) ∧
      st'.j.val = (List.intercalate [' '] (ws ++ [w])).length := by
  have hcost : (ReverseWords.cost ws : ℤ) + st.i.val + 1 ≤ s.chars.length := h.cost
  have halen := (List.rdropWhile_prefix (· = ' ') front).length_le
  obtain ⟨suf, hsuf⟩ := (List.rdropWhile_prefix (· = ' ') front).trans hpre
  obtain ⟨i₁, hskip, hi₁⟩ := returns_skip hpre hidx
  rw [hlast.skip] at halen hsuf hi₁
  obtain ⟨i₂, hword, hi₂⟩ := returns_word (s := s) ⟨suf, hsuf⟩ hi₁
  rw [hlast.word] at hi₂
  rw [List.length_append] at halen hi₁
  have hwpos := List.length_pos_of_ne_nil hlast.nonempty
  obtain ⟨wordBegin, hbegin, hwb⟩ :=
    findBegin_eq hsuf.symm hlast.space hi₂ (by omega) st.wordBegin
  have hsrc : suffix s wordBegin = .ok (w ++ suf) := by
    have hle := congrArg List.length hsuf
    simp only [List.length_append] at hle
    rw [suffix, if_pos ⟨by omega, by unfold CString.len; omega⟩, hwb, ← hsuf]
    simp
  have hn : (CInt.wrap (i₁.val - wordBegin.val + 1)).val = w.length := by
    have hdiff : i₁.val - wordBegin.val + 1 = w.length := by omega
    rw [hdiff]
    exact CInt.wrap_natCast (by omega)
  -- what has been written and what is left fit into the string, and so into an `int`
  obtain ⟨r, j, hsep, hcopy, hj⟩ := write_word suf h.nonempty
    (show ReverseWords.cost ws + w.length ≤ cap by omega) (by omega) h.j hn
  rw [← h.r] at hsep
  have hjlen : (CInt.wrap (j.val + i₁.val - wordBegin.val + 1)).val =
      (List.intercalate [' '] (ws ++ [w])).length := by
    have hsum : j.val + i₁.val - wordBegin.val + 1 =
        (List.intercalate [' '] (ws ++ [w])).length := by omega
    rw [hsum]
    have hjoin := length_join (show ws ++ [w] ≠ [] by simp)
    rw [cost_concat] at hjoin
    exact CInt.wrap_natCast (by omega)
  refine ⟨⟨CInt.wrap (i₂.val - 1), CInt.wrap (j.val + i₁.val - wordBegin.val + 1), wordBegin, i₁,
    buffer cap (List.intercalate [' '] (ws ++ [w]))⟩, ?_, ?_, rfl, hjlen⟩
  · have hne : ¬ i₁.val = -1 := by omega
    rw [scanBody, if_pos hi]
    refine hskip.bind ?_
    rw [if_neg hne]
    refine hword.bind ?_
    simp only [hbegin, hsep, hsrc, hcopy, Prog.liftM_eq_lift, Prog.lift_ok, Prog.pure_bind]
    exact returns_pure _
  · show (CInt.wrap (i₂.val - 1)).val = _
    rw [hi₂]
    exact CInt.wrap_of_fits ⟨by unfold intMin; omega, by omega⟩

theorem Reversing.turn {cap : ℕ} {st : Scan} {ws : List (List Char)} (h : Reversing s cap st ws)
    (hcap : s.chars.length ≤ cap) (hlen : (s.chars.length : ℤ) ≤ intMax) (hi : 0 ≤ st.i.val) :
    (Returns (scanBody s st) (.exit st.r) ∧
        GoodCommand.words ' ' (s.chars.take (st.i.val + 1).toNat) = []) ∨
      ∃ st' ws', Returns (scanBody s st) (.next st') ∧ Reversing s cap st' ws' ∧
        st'.i.val < st.i.val := by
  have hlt : st.i.val < s.chars.length := h.i_lt
  have hcost : (ReverseWords.cost ws : ℤ) + st.i.val + 1 ≤ s.chars.length := h.cost
  have hwords := h.words
  generalize hfront : s.chars.take (st.i.val + 1).toNat = front at hwords ⊢
  have hpre : front <+: s.chars := hfront ▸ List.take_prefix _ _
  have hidx : st.i.val = front.length - 1 := by
    rw [← hfront, List.length_take]
    omega
  rcases exists_last_word front with ⟨hnil, hnone⟩ | ⟨b, w, hlast⟩
  · obtain ⟨i, hskip, hend⟩ := returns_skip hpre hidx
    have hstart : i.val = -1 := by simpa [hnil] using hend
    refine .inl ⟨?_, hnone⟩
    rw [scanBody, if_pos hi]
    refine hskip.bind ?_
    rw [if_pos hstart]
    exact returns_pure _
  · obtain ⟨st', hret, hi', hr', hj'⟩ := h.copy hcap hlen hi hpre hidx hlast
    have halen := (List.rdropWhile_prefix (· = ' ') front).length_le
    have hbw : b ++ w <+: front := hlast.skip ▸ List.rdropWhile_prefix _ _
    rw [hlast.skip, List.length_append] at halen
    refine .inr ⟨st', ws ++ [w], hret, ⟨?_, ?_, hr', hj', ?_, ?_⟩, by omega⟩
    · show st'.i.val < s.chars.length
      omega
    · -- the character before the word is a space, and is skipped with it
      have htake : s.chars.take (st'.i.val + 1).toNat = b.dropLast := by
        have hnat : (st'.i.val + 1).toNat = b.length - 1 := by omega
        obtain ⟨suf, hsuf⟩ := hbw.trans hpre
        rw [hnat, ← hsuf, List.append_assoc, List.dropLast_eq_take,
          List.take_append_of_le_length (Nat.sub_le _ _)]
      rw [htake, hwords, hlast.words, List.reverse_append, List.append_assoc]
      rfl
    · intro v hv
      rcases List.mem_append.mp hv with hv | hv
      · exact h.nonempty v hv
      · rw [List.mem_singleton.mp hv]
        exact hlast.nonempty
    · show (ReverseWords.cost (ws ++ [w]) : ℤ) + st'.i.val + 1 ≤ s.chars.length
      rw [cost_concat]
      push_cast
      omega

theorem returns_scan {len : CInt} (hlen : len.val = s.len) {cap : ℕ}
    (hcap : s.chars.length ≤ cap) :
    Returns (loop (scanBody s) (start len (List.replicate cap '\x00')))
      (buffer cap (List.intercalate [' '] (words ' ' s.chars).reverse)) := by
  have hfit : (s.chars.length : ℤ) ≤ intMax := by
    have hle : len.val ≤ intMax := len.property.2
    rwa [hlen] at hle
  obtain ⟨r, hret, rfl⟩ := returns_loop_of_inv (fun st => ∃ ws, Reversing s cap st ws)
    (fun st => (st.i.val + 1).toNat)
    (Q := fun r => r = buffer cap (List.intercalate [' '] (words ' ' s.chars).reverse))
    (fun st hst => by
      obtain ⟨ws, h⟩ := hst
      by_cases hi : 0 ≤ st.i.val
      · rcases h.turn hcap hfit hi with ⟨hexit, hnone⟩ | ⟨st', ws', hnext, h', hlt⟩
        · exact .inl ⟨_, hexit, h.done hnone⟩
        · exact .inr ⟨st', hnext, ⟨ws', h'⟩, by omega⟩
      · have hnil : (st.i.val + 1).toNat = 0 := by omega
        refine .inl ⟨st.r, returns_of_eq (by rw [scanBody, if_neg hi]), h.done ?_⟩
        rw [hnil, List.take_zero, words_nil])
    ⟨[], Reversing.start hlen cap⟩
  exact hret

theorem length_reversed_le (s : CString) :
    (List.intercalate [' '] (words ' ' s.chars).reverse).length ≤ s.chars.length := by
  by_cases hnil : words ' ' s.chars = []
  · simp [hnil]
  · have hlen : _ + 1 = cost (words ' ' s.chars).reverse := length_join (by simpa using hnil)
    have hsum : ((words ' ' s.chars).map fun w => w.length + 1).sum ≤ _ := sum_words_le s.chars
    rw [cost, List.map_reverse, List.sum_reverse] at hlen
    omega

theorem nul_not_mem_reversed (s : CString) :
    '\x00' ∉ List.intercalate [' '] (words ' ' s.chars).reverse := by
  intro hmem
  rcases mem_intercalate hmem with hsep | ⟨w, hw, hnul⟩
  · exact absurd hsep (by decide)
  · exact s.noNul (subset_of_mem_words (List.mem_reverse.mp hw) hnul)

theorem reverseWords_eq (s : CString) : reverseWords s =
    (Prog.lift (Arr.malloc (fun _ => '\x00') (CInt.wrap ((CInt.wrap s.len).val + 1)).val) >>=
      fun r => if (CInt.wrap s.len).val = 0 then pure r
        else loop (scanBody s) (start (CInt.wrap s.len) r)) := rfl

theorem reverseWords_fits (hfit : s.len < intMax) : reverseWords s =
    if (CInt.wrap s.len).val = 0 then pure (List.replicate (s.chars.length + 1) '\x00')
    else loop (scanBody s)
      (start (CInt.wrap s.len) (List.replicate (s.chars.length + 1) '\x00')) := by
  have hsize : (CInt.wrap ((CInt.wrap s.len).val + 1)).val = (s.chars.length + 1 : ℕ) := by
    have hsum : (CInt.wrap s.len).val + 1 = (s.chars.length + 1 : ℕ) := by
      rw [CString.len, CInt.wrap_natCast (le_of_lt hfit), Nat.cast_add, Nat.cast_one]
    rw [hsum]
    refine CInt.wrap_natCast ?_
    unfold CString.len at hfit
    omega
  rw [reverseWords_eq, Arr.malloc_const _ hsize, Prog.lift_ok]
  exact Prog.pure_bind _ _

/-- The words are returned from the last to the first, with one space between each two, in a buffer
of `strlen(s)+1` characters. The run in a buffer of `strlen(s)` shows that no write goes further. -/
theorem reverseWords_spec (s : CString) (hfit : s.len < intMax) :
    ∃ r r', Returns (reverseWords s) r ∧ r = r' ++ ['\x00'] ∧ r'.length = s.chars.length ∧
      cString r = List.intercalate [' '] (words ' ' s.chars).reverse ∧
      Returns (loop (scanBody s) (start (CInt.wrap s.len) (List.replicate s.chars.length '\x00')))
        r' := by
  have hlen := length_reversed_le s
  have hwrap : (CInt.wrap s.len).val = s.len := CInt.wrap_natCast (le_of_lt hfit)
  refine ⟨_, _, ?_, buffer_succ hlen, length_buffer hlen, cString_buffer (nul_not_mem_reversed s),
    returns_scan hwrap le_rfl⟩
  rw [reverseWords_fits hfit]
  by_cases hs : (CInt.wrap s.len).val = 0
  · have hnil : s.chars = [] := by
      have hzero : s.len = 0 := hwrap.symm.trans hs
      exact List.length_eq_zero_iff.mp (Int.natCast_eq_zero.mp hzero)
    rw [if_pos hs, hnil, words_nil]
    exact returns_pure _
  · rw [if_neg hs]
    exact returns_scan hwrap (Nat.le_succ _)

theorem reverseWords_spec_sample :
    ∃ r r', Returns (reverseWords ⟨[' ', ' ', 'a', ' ', 'b'], by decide⟩) r ∧
      r = r' ++ ['\x00'] ∧ r'.length = 5 ∧
      cString r = List.intercalate [' '] (words ' ' [' ', ' ', 'a', ' ', 'b']).reverse ∧
      Returns (loop (scanBody ⟨[' ', ' ', 'a', ' ', 'b'], by decide⟩)
        (start (CInt.wrap 5) (List.replicate 5 '\x00'))) r' :=
  reverseWords_spec _ (by decide)

theorem overflow_faults {s : CString} (hlen : intMax ≤ s.len) (hlt : s.len < 4294967295) :
    Faults (reverseWords s) ⟨s.len + 1 - 4294967296⟩ := by
  have hsize : (CInt.wrap ((CInt.wrap s.len).val + 1)).val = s.len + 1 - 4294967296 := by
    rw [CInt.wrap_add, CInt.wrap_val, Int.bmod_def]
    unfold intMax at hlen
    split <;> omega
  have hmalloc : Arr.malloc (fun _ => '\x00') (s.len + 1 - 4294967296) = _ := if_neg (by omega)
  rw [reverseWords_eq, hsize]
  exact Faults.bind (faults_lift hmalloc)

def letters (n : ℕ) : CString where
  chars := List.replicate n 'a'
  noNul h := absurd (List.eq_of_mem_replicate h) (by decide)

/-- `2^31 - 1` letters. -/
theorem long_buffer_faults : ¬ ∃ r, Returns (reverseWords (letters 2147483647)) r := by
  rintro ⟨r, hret⟩
  refine hret.not_faults (overflow_faults ?_ ?_)
  all_goals
    rw [CString.len, letters, List.length_replicate]
    decide

end GoodCommand.ReverseWords
