import GoodCommand.Calculator.Mtob
import GoodCommand.Calculator.Seen

/-! Whole runs of `mtob`. A text over digits, operators and spaces whose tokens the operator stack
takes is turned into the printed postfix sequence of those tokens. -/

namespace GoodCommand.Calculator.StringStack
open Fuel Shunting

variable {P : Platform} {s : List Char} {ov : ℕ} {st : Scan} {K out : List Char}

/-! ### The buffers -/

/-- `mtob` gets the buffers that it needs for `s`: `(str_len+1)*2` is an `int`. -/
def Sized (s : List Char) : Prop := 0 ≤ (strLen s).val ∧ (strLen s).val < 1073741823

theorem sized_of_length (h : s.length < 1073741823) : Sized s := by
  have hlen : (strLen s).val = s.length := strLen_of_le (by unfold intMax; omega)
  rw [Sized, hlen]
  omega

theorem wrap_bstrLen {n : ℕ} (h : n < 1073741823) :
    (CInt.wrap ((CInt.wrap ((n : ℤ) + 1)).val * 2)).val = ((n + 1) * 2 : ℕ) := by
  rw [← Nat.cast_succ, CInt.wrap_natCast (by unfold intMax; omega)]
  have hcast : ((n.succ : ℕ) : ℤ) * 2 = ((n + 1) * 2 : ℕ) := by push_cast; ring
  rw [hcast]
  exact CInt.wrap_natCast (by unfold intMax; omega)

theorem mtobStart_eq (h : Sized s) (g : Globals) :
    mtobStart s g = .ok ⟨0, 0, List.replicate ((scanLen s + 1) * 2) '\x00', { g with
      stack := List.replicate (scanLen s + 1) ⟨CInt.zero, []⟩
      stackLen := strLen s }⟩ := by
  obtain ⟨h0, hlt⟩ := h
  have hlen : (strLen s).val = scanLen s := (Int.toNat_of_nonneg h0).symm
  have hb : (CInt.wrap ((CInt.wrap ((strLen s).val + 1)).val * 2)).val =
      ((scanLen s + 1) * 2 : ℕ) := by
    rw [hlen]
    exact wrap_bstrLen (by omega)
  rw [mtobStart, zeroed_eq _ hb, stackInit_eq g hlen (by unfold intMax; omega)]
  rfl

/-- From 2^30 - 1 characters on the sizes overflow, and a `memset` writes to the null pointer. -/
theorem mtobStart_overflows (h : 1073741823 ≤ (strLen s).val) (g : Globals) :
    mtobStart s g = .error .nullPointer := by
  have hmax := (strLen s).property.2
  by_cases heq : (strLen s).val = intMax
  · have hb : (CInt.wrap ((CInt.wrap ((strLen s).val + 1)).val * 2)).val = (0 : ℕ) := by
      rw [heq]
      decide
    have hst : (CInt.wrap ((strLen s).val + 1)).val < 0 := by
      rw [heq]
      decide
    rw [mtobStart, zeroed_eq _ hb, stackInit, zeroed_neg _ hst]
    rfl
  · have hsucc : (CInt.wrap ((strLen s).val + 1)).val = (strLen s).val + 1 :=
      CInt.wrap_of_fits ⟨by unfold intMin; omega, by omega⟩
    have hb : (CInt.wrap ((CInt.wrap ((strLen s).val + 1)).val * 2)).val < 0 := by
      unfold intMax at hmax heq
      rw [hsucc, CInt.wrap_above (by unfold intMax; omega) (by omega)]
      omega
    rw [mtobStart, zeroed_neg _ hb]
    rfl

theorem stackInit_it {g g' : Globals} {len : CInt} (h : stackInit g len = .ok g') :
    g'.it = g.it := by
  obtain ⟨stack, -, h⟩ := bind_ok h
  cases h
  rfl

theorem mtobStart_negative (h : (strLen s).val < 0) {g : Globals} {st : Scan}
    (hst : mtobStart s g = .ok st) : st.bstr = [] ∧ st.g.it = g.it := by
  have hmin := (strLen s).property.1
  by_cases heq : (strLen s).val = -1
  · have hb : (CInt.wrap ((CInt.wrap ((strLen s).val + 1)).val * 2)).val = (0 : ℕ) := by
      rw [heq]
      decide
    rw [mtobStart, zeroed_eq _ hb] at hst
    obtain ⟨b, hb, hst⟩ := bind_ok hst
    obtain ⟨g', hg', hst⟩ := bind_ok hst
    cases hb
    cases hst
    exact ⟨rfl, stackInit_it hg'⟩
  · have hneg : (CInt.wrap ((strLen s).val + 1)).val < 0 := by
      rw [CInt.wrap_of_fits ⟨by omega, by unfold intMax; omega⟩]
      omega
    obtain ⟨b, -, hst⟩ := bind_ok hst
    rw [stackInit, zeroed_neg _ hneg] at hst
    cases hst

/-! ### The turns of the scan -/

theorem mtobBody_op (hi : InScan s st.scandIndex) {c : Char} {cs : List Char}
    (htxt : s.drop st.scandIndex = c :: cs) (hc : isLegalOp c = true) :
    mtobBody P s st = mtobOp P c { st with scandIndex := st.scandIndex + 1 } >>= fun st =>
      pure (.next st) := by
  rw [mtobBody, if_pos hi, htxt]
  dsimp only [sscanfC]
  rw [hi.advance, if_pos hc]
  rfl

theorem mtobBody_blank (hi : InScan s st.scandIndex) {cs : List Char}
    (htxt : s.drop st.scandIndex = ' ' :: cs) :
    mtobBody P s st = pure (.next { st with scandIndex := st.scandIndex + 1 }) := by
  rw [mtobBody, if_pos hi, htxt]
  dsimp only [sscanfC]
  rw [hi.advance, if_neg (by decide), if_pos rfl]
  rfl

/-- The error branch is never taken, as `"%c"` always finds a character. -/
theorem mtobBody_other (hi : InScan s st.scandIndex) {c : Char} {cs : List Char}
    (htxt : s.drop st.scandIndex = c :: cs) (hop : ¬ isLegalOp c = true) (hsp : c ≠ ' ') :
    mtobBody P s st = match sscanfD P (c :: cs) with
      | .read v n => Prog.lift (emitNum v st) >>= fun st =>
          Prog.lift (advance st.scandIndex n) >>= fun i =>
            pure (.next { st with scandIndex := i })
      | _ => pure (.next st) := by
  have hret : ¬ ((sscanfD P (c :: cs)).ret = 0 ∧ (Conv.read c 1).ret = 0) := by simp [Conv.ret]
  rw [mtobBody, if_pos hi, htxt]
  dsimp only [sscanfC]
  rw [if_neg hop, if_neg hsp, if_neg hret]
  cases sscanfD P (c :: cs) <;> rfl

theorem mtobBody_num (hi : InScan s st.scandIndex) {v : CInt} {n : ℕ}
    (hlex : lexeme P (s.drop st.scandIndex) = .num v n) :
    mtobBody P s st = Prog.lift (emitNum v st) >>= fun st =>
      Prog.lift (advance st.scandIndex n) >>= fun i =>
        pure (.next { st with scandIndex := i }) := by
  have hread := lexeme_num hlex
  obtain ⟨c, cs, htxt⟩ := List.exists_cons_of_ne_nil (drop_ne_nil hi.lt_length)
  rw [htxt] at hread hlex
  obtain ⟨hop, hsp⟩ := num_head hlex
  rw [mtobBody_other hi htxt (by simp [hop]) hsp, hread]

theorem mtobBody_stuck (hi : InScan s st.scandIndex)
    (hlex : lexeme P (s.drop st.scandIndex) = .stuck) : mtobBody P s st = pure (.next st) := by
  obtain ⟨c, cs, htxt⟩ := List.exists_cons_of_ne_nil (drop_ne_nil hi.lt_length)
  rw [htxt] at hlex
  obtain ⟨hop, hsp, hread⟩ := stuck_head hlex
  rw [mtobBody_other hi htxt (by simp [hop]) hsp]
  rcases hread with hread | hread <;> rw [hread]

theorem mtobBody_done (hi : ¬ InScan s st.scandIndex) :
    mtobBody P s st = pure (.exit (some st)) := by
  rw [mtobBody, if_neg hi]

structure Scanning (s : List Char) (ov : ℕ) (st : Scan) (K out : List Char) : Prop where
  rep : Rep (scanLen s) ov st K out
  cost : out.length + 2 * K.length ≤ 2 * st.scandIndex
  bound : st.scandIndex ≤ s.length

theorem rep_init (n : ℕ) {g : Globals} (hg : g.it.val = -1) {len : CInt} (hlen : len.val = n) :
    Rep n g.overflows ⟨0, 0, List.replicate ((n + 1) * 2) '\x00',
      { g with stack := List.replicate (n + 1) ⟨CInt.zero, []⟩, stackLen := len }⟩ [] [] where
  holds := holds_init hg hlen _
  size := List.length_replicate
  bi := rfl
  bstr := by simp [buffer]
  le_cap := Nat.zero_le _
  reports := rfl

theorem Scanning.start (h : Sized s) {g : Globals} (hg : g.it.val = -1) :
    ∃ st, mtobStart s g = .ok st ∧ Scanning s g.overflows st [] [] ∧ st.scandIndex = 0 :=
  ⟨_, mtobStart_eq h g, ⟨rep_init _ hg (Int.toNat_of_nonneg h.1).symm, le_rfl, Nat.zero_le _⟩, rfl⟩

theorem Scanning.room (h : Scanning s ov st K out) (hi : InScan s st.scandIndex) :
    out.length + 2 * K.length + 2 ≤ 2 * scanLen s := by
  have hcost := h.cost
  have hlt := inScan_iff.mp hi
  omega

theorem Scanning.blank (h : Scanning s ov st K out) (hi : InScan s st.scandIndex) {cs : List Char}
    (htxt : s.drop st.scandIndex = ' ' :: cs) :
    ∃ st', Returns (mtobBody P s st) (.next st') ∧ Scanning s ov st' K out ∧
      st'.scandIndex = st.scandIndex + 1 := by
  refine ⟨{ st with scandIndex := st.scandIndex + 1 }, ?_,
    ⟨h.rep.setIndex _, ?_, hi.lt_length⟩, rfl⟩
  · exact returns_of_eq (mtobBody_blank hi htxt)
  · have := h.cost
    show _ ≤ 2 * (st.scandIndex + 1)
    omega

theorem Scanning.num (h : Scanning s ov st K out) {v : CInt} {n : ℕ}
    (hi : InScan s st.scandIndex) (hlex : lexeme P (s.drop st.scandIndex) = .num v n)
    (hn : ((st.scandIndex + n : ℕ) : ℤ) ≤ intMax)
    (hroom : (out ++ entryText (.num v)).length < (scanLen s + 1) * 2) :
    ∃ st', Returns (mtobBody P s st) (.next st') ∧
      Scanning s ov st' K (out ++ entryText (.num v)) ∧ st'.scandIndex = st.scandIndex + n := by
  obtain ⟨-, -, hlen⟩ := sscanfD_bounds (lexeme_num hlex)
  obtain ⟨-, hle⟩ := num_le_length hi.lt_length hlex
  have hcost := h.cost
  obtain ⟨st₁, hst, hrep, hidx⟩ := h.rep.emitNum v hroom
  have hadv := advance_ok hn
  rw [← hidx] at hadv
  refine ⟨{ st₁ with scandIndex := st₁.scandIndex + n }, ?_, ⟨hrep.setIndex _, ?_, ?_⟩, ?_⟩
  · rw [mtobBody_num hi hlex]
    exact (returns_lift hst).bind ((returns_lift hadv).bind (returns_pure _))
  · simp only [entryText, List.length_append, List.length_singleton, hidx]
    omega
  · simp only [hidx]
    omega
  · simp only [hidx]

theorem Scanning.num_room (h : Scanning s ov st K out) {v : CInt} {n : ℕ}
    (hlex : lexeme P (s.drop st.scandIndex) = .num v n) (hn : st.scandIndex + n ≤ scanLen s) :
    (out ++ entryText (.num v)).length < (scanLen s + 1) * 2 := by
  obtain ⟨-, -, hlen⟩ := sscanfD_bounds (lexeme_num hlex)
  have hcost := h.cost
  simp only [entryText, List.length_append, List.length_singleton]
  omega

theorem Scanning.num_faults (h : Scanning s ov st K out) {v : CInt} {n : ℕ}
    (hi : InScan s st.scandIndex) (hlex : lexeme P (s.drop st.scandIndex) = .num v n)
    (hbad : (scanLen s + 1) * 2 ≤ (out ++ entryText (.num v)).length ∨
      ¬ ((st.scandIndex + n : ℕ) : ℤ) ≤ intMax) : ∃ f, Faults (mtobBody P s st) f := by
  rw [mtobBody_num hi hlex]
  by_cases hroom : (out ++ entryText (.num v)).length < (scanLen s + 1) * 2
  · obtain ⟨st₁, hst, -, hidx⟩ := h.rep.emitNum v hroom
    have hadv := advance_error (hbad.resolve_left (not_le.mpr hroom))
    rw [← hidx] at hadv
    exact ⟨_, (returns_lift hst).bind_faults (Faults.bind (faults_lift hadv))⟩
  · obtain ⟨f, hf⟩ := h.rep.emitNum_overruns v (not_lt.mp hroom)
    exact ⟨f, Faults.bind (faults_lift hf)⟩

theorem Scanning.op (h : Scanning s ov st K out) (hi : InScan s st.scandIndex) {c : Char}
    {cs em K' : List Char} (htxt : s.drop st.scandIndex = c :: cs) (hc : isLegalOp c = true)
    (hyard : yardOp P c K = some (em, K')) :
    ∃ st', Returns (mtobBody P s st) (.next st') ∧
      Scanning s ov st' K' (out ++ text (em.map .op)) ∧ st'.scandIndex = st.scandIndex + 1 := by
  have hcost := h.cost
  obtain ⟨st', hret, hrep, hidx⟩ :=
    (h.rep.setIndex (st.scandIndex + 1)).mtobOp (h.room hi) hyard
  refine ⟨st', ?_, ⟨hrep, ?_, ?_⟩, hidx⟩
  · rw [mtobBody_op hi htxt hc]
    exact hret.bind (returns_pure _)
  · have hlen := yardOp_length hyard
    rw [List.length_append, length_text_ops, hidx]
    show _ ≤ 2 * (st.scandIndex + 1)
    omega
  · rw [hidx]
    exact hi.lt_length

theorem Scanning.op_faults (h : Scanning s ov st K out) (hi : InScan s st.scandIndex) {c : Char}
    {cs : List Char} (htxt : s.drop st.scandIndex = c :: cs) (hc : isLegalOp c = true)
    (hyard : yardOp P c K = none) : Faults (mtobBody P s st) (.stackIndex (-1)) := by
  have hroom := h.room hi
  rw [mtobBody_op hi htxt hc]
  exact Faults.bind ((h.rep.setIndex (st.scandIndex + 1)).mtobOp_faults (by omega) hyard)

/-! ### The scan -/

variable {i j : ℕ} {es em : List Entry} {K' : List Char}

theorem cost_of_takes (h : Takes P s i es j) (hyard : yardAll P es K = some (em, K')) :
    (text em).length + 2 * K'.length ≤ 2 * K.length + 2 * (j - i) := by
  induction h generalizing K em with
  | refl =>
    cases hyard
    simp
  | blank _ _ _ ih =>
    have hrest := ih hyard
    omega
  | op _ _ _ hrest ih =>
    obtain ⟨em₁, K₁, em₂, hop, hes, rfl⟩ := yardAll_op_eq_some.mp hyard
    have hlen := yardOp_length hop
    have hle := hrest.le
    have hcost := ih hes
    rw [text_append, List.length_append, length_text_ops]
    omega
  | num _ hlex _ hrest ih =>
    obtain ⟨em₂, hes, rfl⟩ := yardAll_num_eq_some.mp hyard
    obtain ⟨-, -, hlen⟩ := sscanfD_bounds (lexeme_num hlex)
    have hle := hrest.le
    have hcost := ih hes
    simp only [text_cons, entryText, List.length_append, List.length_singleton]
    omega

theorem Scanning.iterates (htakes : Takes P s i es j) (h : Scanning s ov st K out)
    (hi : st.scandIndex = i) (hyard : yardAll P es K = some (em, K'))
    (hroom : (out ++ text em).length < (scanLen s + 1) * 2) :
    ∃ k st', Iterates (mtobBody P s) k st st' ∧ Scanning s ov st' K' (out ++ text em) ∧
      st'.scandIndex = j := by
  induction htakes generalizing st K out em with
  | refl =>
    cases hyard
    exact ⟨0, st, .zero st, by simpa using h, hi⟩
  | blank hin htxt _ ih =>
    subst hi
    obtain ⟨st₁, hret, hs, hidx⟩ := h.blank (P := P) hin htxt
    obtain ⟨k, st', hk, hs', hj⟩ := ih hs hidx hyard hroom
    exact ⟨k + 1, st', hk.head hret, hs', hj⟩
  | op hin htxt hc _ ih =>
    subst hi
    obtain ⟨em₁, K₁, em₂, hop, hes, rfl⟩ := yardAll_op_eq_some.mp hyard
    obtain ⟨st₁, hret, hs, hidx⟩ := h.op hin htxt hc hop
    rw [text_append, ← List.append_assoc] at hroom ⊢
    obtain ⟨k, st', hk, hs', hj⟩ := ih hs hidx hes hroom
    exact ⟨k + 1, st', hk.head hret, hs', hj⟩
  | @num i j n v es hin hlex hn _ ih =>
    subst hi
    obtain ⟨em₂, hes, rfl⟩ := yardAll_num_eq_some.mp hyard
    rw [text_cons, ← List.append_assoc] at hroom ⊢
    have hnum : (out ++ entryText (.num v)).length < (scanLen s + 1) * 2 := by
      rw [List.length_append] at hroom
      omega
    obtain ⟨st₁, hret, hs, hidx⟩ := h.num hin hlex hn hnum
    obtain ⟨k, st', hk, hs', hj⟩ := ih hs hidx hes hroom
    exact ⟨k + 1, st', hk.head hret, hs', hj⟩

theorem Scanning.reaches (htakes : Takes P s i es j) (hj : j ≤ scanLen s)
    (h : Scanning s ov st K out) (hi : st.scandIndex = i)
    (hyard : yardAll P es K = some (em, K')) :
    ∃ k st', Iterates (mtobBody P s) k st st' ∧ Scanning s ov st' K' (out ++ text em) ∧
      st'.scandIndex = j := by
  refine h.iterates htakes hi hyard ?_
  have hcost := cost_of_takes htakes hyard
  have hstart := h.cost
  have hle := htakes.le
  rw [List.length_append]
  omega

theorem Scanning.overruns (htakes : Takes P s i es j) (h : Scanning s ov st K out)
    (hi : st.scandIndex = i) (hyard : yardAll P es K = some (em, K'))
    (hout : out.length < (scanLen s + 1) * 2)
    (hroom : (scanLen s + 1) * 2 ≤ (out ++ text em).length) :
    ∃ f, Faults (loop (mtobBody P s) st) f := by
  induction htakes generalizing st K out em with
  | refl =>
    cases hyard
    simp only [text_nil, List.append_nil] at hroom
    omega
  | blank hin htxt _ ih =>
    subst hi
    obtain ⟨st₁, hret, hs, hidx⟩ := h.blank (P := P) hin htxt
    obtain ⟨f, hf⟩ := ih hs hidx hyard hout hroom
    exact ⟨f, faults_loop_next hret hf⟩
  | op hin htxt hc _ ih =>
    subst hi
    obtain ⟨em₁, K₁, em₂, hop, hes, rfl⟩ := yardAll_op_eq_some.mp hyard
    obtain ⟨st₁, hret, hs, hidx⟩ := h.op hin htxt hc hop
    rw [text_append, ← List.append_assoc] at hroom
    have hcost := hs.cost
    have hlt := inScan_iff.mp hin
    obtain ⟨f, hf⟩ := ih hs hidx hes (by omega) hroom
    exact ⟨f, faults_loop_next hret hf⟩
  | @num i j n v es hin hlex hn _ ih =>
    subst hi
    obtain ⟨em₂, hes, rfl⟩ := yardAll_num_eq_some.mp hyard
    rw [text_cons, ← List.append_assoc] at hroom
    by_cases hnum : (out ++ entryText (.num v)).length < (scanLen s + 1) * 2
    · obtain ⟨st₁, hret, hs, hidx⟩ := h.num hin hlex hn hnum
      obtain ⟨f, hf⟩ := ih hs hidx hes hnum hroom
      exact ⟨f, faults_loop_next hret hf⟩
    · obtain ⟨f, hf⟩ := h.num_faults hin hlex (.inl (not_lt.mp hnum))
      exact ⟨f, faults_loop hf⟩

theorem Scanning.run_faults (htakes : Takes P s i es j) (h : Scanning s ov st K out)
    (hi : st.scandIndex = i) (hyard : yardAll P es K = none) :
    Faults (loop (mtobBody P s) st) (.stackIndex (-1)) := by
  induction htakes generalizing st K out with
  | refl => cases hyard
  | blank hin htxt _ ih =>
    subst hi
    obtain ⟨st₁, hret, hs, hidx⟩ := h.blank (P := P) hin htxt
    exact faults_loop_next hret (ih hs hidx hyard)
  | @op i j c cs es hin htxt hc _ ih =>
    subst hi
    cases hop : yardOp P c K with
    | none => exact faults_loop (h.op_faults hin htxt hc hop)
    | some r =>
      obtain ⟨st₁, hret, hs, hidx⟩ := h.op hin htxt hc hop
      exact faults_loop_next hret (ih hs hidx ((yardAll_op_eq_none hop).mp hyard))
  | @num i j n v es hin hlex hn hrest ih =>
    subst hi
    have hes := yardAll_num_eq_none.mp hyard
    have hne : es ≠ [] := by
      rintro rfl
      cases hes
    have hroom := h.num_room hlex (inScan_iff.mp (hrest.inScan hne)).le
    obtain ⟨st₁, hret, hs, hidx⟩ := h.num hin hlex hn hroom
    exact faults_loop_next hret (ih hs hidx hes)

theorem Scanning.overflows (h : Scanning s ov st K out) (hi : st.scandIndex = i)
    (hover : Overflows P s i) : ∃ f, Faults (loop (mtobBody P s) st) f := by
  obtain ⟨es, j, v, n, htakes, hin, hlex, hn⟩ := hover
  cases hyard : yardAll P es K with
  | none => exact ⟨_, h.run_faults htakes hi hyard⟩
  | some r =>
    obtain ⟨k, st', hk, hs, rfl⟩ := h.reaches htakes (inScan_iff.mp hin).le hi hyard
    obtain ⟨f, hf⟩ := hs.num_faults hin hlex (.inr hn)
    exact ⟨f, hk.faults_loop (faults_loop hf)⟩

/-! ### The operators that are left -/

theorem Rep.drain {n : ℕ} (h : Rep n ov st K out)
    (hroom : out.length + 2 * K.length ≤ (n + 1) * 2) :
    ∃ st', Returns (loop drainBody st) st' ∧ Rep n ov st' [] (out ++ text (K.map .op)) := by
  induction K generalizing st out with
  | nil =>
    refine ⟨st, returns_loop_exit ?_, by simpa using h⟩
    rw [drainBody, if_pos (h.isEmpty_iff.mpr rfl)]
    exact returns_pure _
  | cons c K ih =>
    rw [List.length_cons] at hroom
    obtain ⟨e, b, b', he, hc, hcpy, hsp, hrep⟩ := h.write (by omega)
    obtain ⟨st', hret, hrep'⟩ := ih hrep (by simpa using by omega)
    have hbody : drainBody st =
        pure (.next ⟨st.scandIndex, st.bi + 1 + 1, b', (stackPop st.g).2⟩) := by
      rw [drainBody, if_neg (mt h.isEmpty_iff.mp (by simp))]
      simp only [he, hc, hcpy, hsp, Prog.liftM_eq_lift, Prog.lift_ok, Prog.pure_bind,
        List.length_singleton]
    exact ⟨st', returns_loop_next (returns_of_eq hbody) hret, by simpa [entryText] using hrep'⟩

theorem Rep.drain_overruns {n : ℕ} (h : Rep n ov st K out)
    (hroom : (n + 1) * 2 < out.length + 2 * K.length) : ∃ f, Faults (loop drainBody st) f := by
  induction K generalizing st out with
  | nil =>
    have hle := h.le_cap
    rw [List.length_nil] at hroom
    omega
  | cons c K ih =>
    rw [List.length_cons] at hroom
    have hne : ¬ isEmpty st.g = true := mt h.isEmpty_iff.mp (by simp)
    by_cases hfit : out.length + 2 ≤ (n + 1) * 2
    · obtain ⟨e, b, b', he, hc, hcpy, hsp, hrep⟩ := h.write hfit
      obtain ⟨f, hf⟩ := ih hrep (by simpa using by omega)
      have hbody : drainBody st =
          pure (.next ⟨st.scandIndex, st.bi + 1 + 1, b', (stackPop st.g).2⟩) := by
        rw [drainBody, if_neg hne]
        simp only [he, hc, hcpy, hsp, Prog.liftM_eq_lift, Prog.lift_ok, Prog.pure_bind,
          List.length_singleton]
      exact ⟨f, faults_loop_next (returns_of_eq hbody) hf⟩
    · obtain ⟨e, f, he, hc, hcpy⟩ := h.write_overruns (not_le.mp hfit)
      refine ⟨f, faults_loop ?_⟩
      rw [drainBody, if_neg hne]
      simp only [he, hc, hcpy, Prog.liftM_eq_lift, Prog.lift_ok, Prog.pure_bind]
      exact Faults.bind (faults_lift rfl)

theorem nul_not_mem_text {es : List Entry} (hes : Legal es) : '\x00' ∉ text es := by
  intro hmem
  obtain ⟨e, he, hc⟩ := List.mem_flatMap.mp hmem
  cases e with
  | num v =>
    simp only [entryText, printD, List.mem_append, List.mem_singleton] at hc
    have hdig : '\x00' ∉ Nat.toDigits 10 v.val.natAbs := fun h =>
      absurd (toDigits_isDigit _ _ h) (by decide)
    split_ifs at hc <;> simp_all
  | op c =>
    have hlegal := hes c he
    simp only [entryText, List.mem_cons, List.not_mem_nil, or_false] at hc
    rcases hc with rfl | hc
    · exact absurd hlegal (by decide)
    · exact absurd hc (by decide)

/-! ### `mtob` -/

def TextFits (s : List Char) (items : List Entry) : Prop :=
  (text items).length < (scanLen s + 1) * 2

theorem mtob_empty {g : Globals} (h : (strLen s).val = 0) (hst : mtobStart s g = .ok st) :
    mtob P s g = pure (some st.bstr, st.g) := by
  rw [mtob, hst]
  simp only [Prog.liftM_eq_lift, Prog.lift_ok]
  rw [Prog.pure_bind, if_pos h]

theorem mtob_scan {g : Globals} (h : (strLen s).val ≠ 0) (hst : mtobStart s g = .ok st) :
    mtob P s g = loop (mtobBody P s) st >>= fun r =>
      match r with
      | none => pure (none, st.g)
      | some st => loop drainBody st >>= fun st => pure (some st.bstr, stackFree st.g) := by
  rw [mtob, hst]
  simp only [Prog.liftM_eq_lift, Prog.lift_ok]
  exact (Prog.pure_bind _ _).trans (if_neg h)

section
variable {g : Globals} {items : List Entry}

theorem mtob_returns (hsize : Sized s) (hscan : Scans P s es j)
    (hpost : postfixOf P es = some items) (hfit : TextFits s items) (hg : g.it.val = -1) :
    ∃ buf g', Returns (mtob P s g) (some buf, g') ∧ cString buf = text items ∧ '\x00' ∈ buf ∧
      g'.it.val = -1 ∧ g'.overflows = g.overflows ∧ buf.length = (scanLen s + 1) * 2 := by
  have hnul := nul_not_mem_text (postfixOf_legal hpost hscan.takes.legal)
  simp only [postfixOf, Option.map_eq_some_iff, Prod.exists] at hpost
  obtain ⟨em, K, hyard, rfl⟩ := hpost
  unfold TextFits at hfit
  obtain ⟨st, hst, hstart, hidx⟩ := Scanning.start hsize hg
  have hret : ∃ buf g', Returns (mtob P s g) (some buf, g') ∧
      buf = buffer ((scanLen s + 1) * 2) (text (em ++ K.map .op)) ∧
      g'.it.val = -1 ∧ g'.overflows = g.overflows := by
    by_cases hs : (strLen s).val = 0
    · have hnil : es = [] := by
        by_contra hne
        have hin : (0 : ℤ) < (strLen s).val := hscan.takes.inScan hne
        omega
      subst hnil
      cases hyard
      exact ⟨st.bstr, st.g, returns_of_eq (mtob_empty hs hst), hstart.rep.bstr,
        hstart.rep.holds.it_eq, hstart.rep.reports⟩
    · have hsum := hfit
      rw [text_append, List.length_append, length_text_ops] at hsum
      obtain ⟨k, st₁, hk, hrep, hj⟩ := hstart.iterates hscan.takes hidx hyard
        (by rw [List.nil_append]; omega)
      obtain ⟨st₂, hdrain, hrep'⟩ := hrep.rep.drain (by rw [List.nil_append]; omega)
      have hloop := hk.returns_loop (returns_loop_exit
        (returns_of_eq (mtobBody_done (P := P) (by rw [hj]; exact hscan.ends))))
      have hbstr := hrep'.bstr
      rw [List.nil_append, ← text_append] at hbstr
      refine ⟨st₂.bstr, stackFree st₂.g, ?_, hbstr, hrep'.holds.it_eq, hrep'.reports⟩
      rw [mtob_scan hs hst]
      exact hloop.bind (hdrain.bind (returns_pure _))
  obtain ⟨buf, g', hmtob, rfl, hit, hov⟩ := hret
  exact ⟨_, g', hmtob, cString_buffer hnul, nul_mem_buffer hfit, hit, hov, length_buffer hfit.le⟩

theorem mtob_loop_faults (hs : InScan s 0) (hst : mtobStart s g = .ok st) {f : Fault}
    (hf : Faults (loop (mtobBody P s) st) f) : Faults (mtob P s g) f := by
  have hne : (strLen s).val ≠ 0 := by
    have hpos : (0 : ℤ) < (strLen s).val := hs
    omega
  rw [mtob_scan hne hst]
  exact Faults.bind hf

theorem mtob_faults (hsize : Sized s) (hscan : Scans P s es j) (hpost : postfixOf P es = none)
    (hg : g.it.val = -1) : Faults (mtob P s g) (.stackIndex (-1)) := by
  have hyard : yardAll P es [] = none := by simpa [postfixOf] using hpost
  have hne : es ≠ [] := by
    rintro rfl
    cases hyard
  obtain ⟨st, hst, hstart, hidx⟩ := Scanning.start hsize hg
  exact mtob_loop_faults (hscan.takes.inScan hne) hst (hstart.run_faults hscan.takes hidx hyard)

/-! ### Runs without a text -/

def NoText (P : Platform) (s : List Char) (g : Globals) : Prop :=
  (∃ f, Faults (mtob P s g) f) ∨ ∃ buf g', Returns (mtob P s g) (some buf, g') ∧ '\x00' ∉ buf

theorem noText_of_overflows (hsize : Sized s) (hover : Overflows P s 0) (hg : g.it.val = -1) :
    NoText P s g := by
  obtain ⟨st, hst, hstart, hidx⟩ := Scanning.start hsize hg
  obtain ⟨f, hf⟩ := hstart.overflows hidx hover
  obtain ⟨es, j, v, n, htakes, hin, -⟩ := hover
  have hle := htakes.le
  have hzero : InScan s 0 := by
    rw [inScan_iff] at hin ⊢
    omega
  exact .inl ⟨f, mtob_loop_faults hzero hst hf⟩

theorem noText_of_overrun (hsize : Sized s) (hscan : Scans P s es j)
    (hpost : postfixOf P es = some items) (hfit : ¬ TextFits s items) (hg : g.it.val = -1) :
    NoText P s g := by
  have hnul := nul_not_mem_text (postfixOf_legal hpost hscan.takes.legal)
  simp only [postfixOf, Option.map_eq_some_iff, Prod.exists] at hpost
  obtain ⟨em, K, hyard, rfl⟩ := hpost
  unfold TextFits at hfit
  obtain ⟨st, hst, hstart, hidx⟩ := Scanning.start hsize hg
  have hne : es ≠ [] := by
    rintro rfl
    cases hyard
    simp at hfit
  have hin := hscan.takes.inScan hne
  have hs : (strLen s).val ≠ 0 := by
    have hpos : (0 : ℤ) < (strLen s).val := hin
    omega
  by_cases hroom : (text em).length < (scanLen s + 1) * 2
  · obtain ⟨k, st₁, hk, hrep, hj⟩ := hstart.iterates hscan.takes hidx hyard
      (by rw [List.nil_append]; exact hroom)
    have hloop := hk.returns_loop (returns_loop_exit
      (returns_of_eq (mtobBody_done (P := P) (by rw [hj]; exact hscan.ends))))
    rw [text_append, List.length_append, length_text_ops] at hfit
    have hrep₁ := hrep.rep
    rw [List.nil_append] at hrep₁
    by_cases hfull : (text em).length + 2 * K.length ≤ (scanLen s + 1) * 2
    · -- the last operator takes the last cell
      obtain ⟨st₂, hdrain, hrep₂⟩ := hrep₁.drain hfull
      refine .inr ⟨st₂.bstr, stackFree st₂.g, ?_, ?_⟩
      · rw [mtob_scan hs hst]
        exact hloop.bind (hdrain.bind (returns_pure _))
      · rw [hrep₂.bstr, ← text_append, buffer_full ?_]
        · exact hnul
        · rw [text_append, List.length_append, length_text_ops]
          omega
    · obtain ⟨f, hf⟩ := hrep₁.drain_overruns (not_le.mp hfull)
      refine .inl ⟨f, ?_⟩
      rw [mtob_scan hs hst]
      exact hloop.bind_faults (Faults.bind hf)
  · obtain ⟨f, hf⟩ := hstart.overruns hscan.takes hidx hyard
      (by rw [List.length_nil]; omega) (by rw [List.nil_append]; exact not_lt.mp hroom)
    exact .inl ⟨f, mtob_loop_faults hin hst hf⟩

theorem mtob_overflows (h : 1073741823 ≤ (strLen s).val) (g : Globals) :
    Faults (mtob P s g) .nullPointer := by
  rw [mtob, mtobStart_overflows h]
  exact Faults.bind (faults_lift rfl)

theorem noText_of_not_sized (hsize : ¬ Sized s) (hg : g.it.val = -1) : NoText P s g := by
  by_cases hbig : 1073741823 ≤ (strLen s).val
  · exact .inl ⟨_, mtob_overflows hbig g⟩
  cases hst : mtobStart s g with
  | error f =>
    refine .inl ⟨f, ?_⟩
    rw [mtob, hst]
    exact Faults.bind (faults_lift rfl)
  | ok st =>
    have hneg : (strLen s).val < 0 := by
      unfold Sized at hsize
      omega
    obtain ⟨hbuf, hit⟩ := mtobStart_negative hneg hst
    have hdone : ¬ InScan s st.scandIndex := by
      unfold InScan
      omega
    have hempty : isEmpty st.g = true := by simp [isEmpty, hit, hg]
    refine .inr ⟨st.bstr, stackFree st.g, ?_, by simp [hbuf]⟩
    rw [mtob_scan (by omega) hst]
    refine (returns_loop_exit (returns_of_eq (mtobBody_done hdone))).bind ?_
    refine (returns_loop_exit (r := st) ?_).bind (returns_pure _)
    rw [drainBody, if_pos hempty]
    exact returns_pure _

end

end GoodCommand.Calculator.StringStack
