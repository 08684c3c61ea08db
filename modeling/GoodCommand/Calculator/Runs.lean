import GoodCommand.Calculator.CalBstr
import GoodCommand.Calculator.DoubleStack
import GoodCommand.Library.Steady

/-! Taking runs of the two scans apart: more fuel changes neither of them, every turn moves to the
next lexeme, and a scan that ends has split the text. -/

namespace GoodCommand.Calculator
open Fuel

variable {P : Platform} {s : List Char}

def nextIndex (P : Platform) (s : List Char) (i : ℕ) : ℕ :=
  match lexeme P (s.drop i) with
  | .op _ => i + 1
  | .blank => i + 1
  | .num _ n => i + n
  | .stuck => i

section
variable {i : ℕ}

theorem nextIndex_op {c : Char} (h : lexeme P (s.drop i) = .op c) :
    nextIndex P s i = i + 1 := by
  rw [nextIndex, h]

theorem nextIndex_blank (h : lexeme P (s.drop i) = .blank) : nextIndex P s i = i + 1 := by
  rw [nextIndex, h]

theorem nextIndex_num {v : CInt} {n : ℕ} (h : lexeme P (s.drop i) = .num v n) :
    nextIndex P s i = i + n := by
  rw [nextIndex, h]

theorem nextIndex_stuck (h : lexeme P (s.drop i) = .stuck) : nextIndex P s i = i := by
  rw [nextIndex, h]

end

/-- A scan that moves from lexeme to lexeme, with every index an `int`, and ends where `str_len`
ends has taken what is there. -/
theorem takes_of_trace {σ ρ : Type} {body : σ → Prog Fault (Ctl σ ρ)} (index : σ → ℕ)
    (hnext : ∀ st st', Returns (body st) (.next st') →
      InScan s (index st) ∧ index st' = nextIndex P s (index st) ∧ (index st' : ℤ) ≤ intMax)
    (hexit : ∀ st r, Returns (body st) (.exit r) → ¬ InScan s (index st)) {st : σ}
    {es : List Entry} {r : ρ} (h : Trace body (fun st => taken P (s.drop (index st))) st es r) :
    ∃ j, Takes P s (index st) es j ∧ ¬ InScan s j := by
  induction h with
  | exit hret => exact ⟨_, .refl _, hexit _ _ hret⟩
  | @next st st' es r hret _ ih =>
    obtain ⟨hi, hidx, hfit⟩ := hnext _ _ hret
    obtain ⟨j, htakes, hj⟩ := ih
    refine ⟨j, ?_, hj⟩
    rw [hidx, nextIndex] at htakes hfit
    rcases lexeme_cases P (drop_ne_nil hi.lt_length) with
      ⟨c, cs, htxt, hc⟩ | ⟨cs, htxt⟩ | ⟨v, n, hlex⟩ | hlex
    · rw [htxt, lexeme_op cs hc] at htakes
      rw [htxt, taken_op cs hc]
      exact .op hi htxt hc htakes
    · rw [htxt, lexeme_blank] at htakes
      rw [htxt, taken_blank]
      exact .blank hi htxt htakes
    · rw [hlex] at htakes hfit
      rw [taken_num hlex]
      exact .num hi hlex hfit htakes
    · rw [hlex] at htakes
      rw [taken, hlex]
      exact htakes

namespace StringStack

theorem steady_closeBody (st : Scan) : Steady (closeBody st) :=
  (steady_lift _).bind fun _ => .ite ((steady_lift _).bind fun _ => steady_pure _) (steady_pure _)

theorem steady_reduceBody (P : Platform) (c : Char) (st : Scan) : Steady (reduceBody P c st) :=
  (steady_lift _).bind fun _ =>
    .ite ((steady_lift _).bind fun _ => .ite (steady_pure _) (steady_pure _)) (steady_pure _)

theorem steady_mtobOp (P : Platform) (c : Char) (st : Scan) : Steady (mtobOp P c st) :=
  .ite (steady_lift _) <| .ite (steady_lift _) <|
    .ite ((steady_loop steady_closeBody st).bind fun _ => steady_pure _)
      ((steady_loop (steady_reduceBody P c) st).bind fun _ => steady_lift _)

theorem steady_mtobBody (P : Platform) (s : List Char) (st : Scan) : Steady (mtobBody P s st) := by
  by_cases hi : InScan s st.scandIndex
  · rcases lexeme_cases P (drop_ne_nil hi.lt_length) with
      ⟨c, cs, htxt, hc⟩ | ⟨cs, htxt⟩ | ⟨v, n, hlex⟩ | hlex
    · rw [mtobBody_op hi htxt hc]
      exact (steady_mtobOp P _ _).bind fun _ => steady_pure _
    · rw [mtobBody_blank hi htxt]
      exact steady_pure _
    · rw [mtobBody_num hi hlex]
      exact (steady_lift _).bind fun _ => (steady_lift _).bind fun _ => steady_pure _
    · rw [mtobBody_stuck hi hlex]
      exact steady_pure _
  · rw [mtobBody_done hi]
    exact steady_pure _

/-! ### The index -/

theorem mtobStart_index {g : Globals} {st : Scan} (h : mtobStart s g = .ok st) :
    st.scandIndex = 0 := by
  obtain ⟨b, -, h⟩ := bind_ok h
  obtain ⟨g', -, h⟩ := bind_ok h
  cases h
  rfl

theorem emitOp_index {st st' : Scan} (h : emitOp st = .ok st') :
    st'.scandIndex = st.scandIndex := by
  obtain ⟨e, -, h⟩ := bind_ok h
  obtain ⟨b, -, h⟩ := bind_ok h
  obtain ⟨b', -, h⟩ := bind_ok h
  cases h
  rfl

theorem pushOp_index {c : Char} {st st' : Scan} (h : pushOp c st = .ok st') :
    st'.scandIndex = st.scandIndex := by
  obtain ⟨g, -, h⟩ := bind_ok h
  cases h
  rfl

theorem emitNum_index {v : CInt} {st st' : Scan} (h : emitNum v st = .ok st') :
    st'.scandIndex = st.scandIndex := by
  obtain ⟨b, -, h⟩ := bind_ok h
  cases h
  rfl

theorem closeBody_index {st : Scan} {r : Ctl Scan Scan} (h : Returns (closeBody st) r) :
    r.state.scandIndex = st.scandIndex := by
  obtain ⟨e, -, h⟩ := (steady_lift _).of_returns_bind h
  split at h
  · obtain ⟨st', hst, h⟩ := (steady_lift _).of_returns_bind h
    cases of_returns_pure h
    exact emitOp_index (of_returns_lift hst)
  · cases of_returns_pure h
    rfl

theorem reduceBody_index {c : Char} {st : Scan} {r : Ctl Scan Scan}
    (h : Returns (reduceBody P c st) r) : r.state.scandIndex = st.scandIndex := by
  obtain ⟨e, -, h⟩ := (steady_lift _).of_returns_bind h
  split at h
  · obtain ⟨st', hst, h⟩ := (steady_lift _).of_returns_bind h
    have hidx := emitOp_index (of_returns_lift hst)
    split at h
    · cases of_returns_pure h
      exact hidx
    · cases of_returns_pure h
      exact hidx
  · cases of_returns_pure h
    rfl

theorem mtobOp_index {c : Char} {st st' : Scan} (h : Returns (mtobOp P c st) st') :
    st'.scandIndex = st.scandIndex := by
  unfold mtobOp at h
  split_ifs at h
  · exact pushOp_index (of_returns_lift h)
  · exact pushOp_index (of_returns_lift h)
  · obtain ⟨st₁, hloop, h⟩ := (steady_loop steady_closeBody st).of_returns_bind h
    have hidx : st₁.scandIndex = st.scandIndex :=
      loop_keeps steady_closeBody (I := fun t => t.scandIndex = st.scandIndex)
        (fun t r hI hret => (closeBody_index hret).trans hI) rfl hloop
    cases of_returns_pure h
    exact hidx
  · obtain ⟨st₁, hloop, h⟩ := (steady_loop (steady_reduceBody P c) st).of_returns_bind h
    have hidx : st₁.scandIndex = st.scandIndex :=
      loop_keeps (steady_reduceBody P c) (I := fun t => t.scandIndex = st.scandIndex)
        (fun t r hI hret => (reduceBody_index hret).trans hI) rfl hloop
    exact (pushOp_index (of_returns_lift h)).trans hidx

theorem mtobBody_next {st st' : Scan} (h : Returns (mtobBody P s st) (.next st')) :
    InScan s st.scandIndex ∧ st'.scandIndex = nextIndex P s st.scandIndex ∧
      (st'.scandIndex : ℤ) ≤ intMax := by
  by_cases hi : InScan s st.scandIndex
  · refine ⟨hi, ?_⟩
    have hsucc := hi.succ_le
    rcases lexeme_cases P (drop_ne_nil hi.lt_length) with
      ⟨c, cs, htxt, hc⟩ | ⟨cs, htxt⟩ | ⟨v, n, hlex⟩ | hlex
    · rw [mtobBody_op hi htxt hc] at h
      obtain ⟨st₁, hop, h⟩ := (steady_mtobOp P _ _).of_returns_bind h
      cases of_returns_pure h
      rw [nextIndex_op (by rw [htxt, lexeme_op cs hc]), mtobOp_index hop]
      exact ⟨rfl, hsucc⟩
    · rw [mtobBody_blank hi htxt] at h
      cases of_returns_pure h
      rw [nextIndex_blank (by rw [htxt, lexeme_blank])]
      exact ⟨rfl, hsucc⟩
    · rw [mtobBody_num hi hlex] at h
      obtain ⟨st₁, hnum, h⟩ := (steady_lift _).of_returns_bind h
      obtain ⟨i, hadv, h⟩ := (steady_lift _).of_returns_bind h
      cases of_returns_pure h
      obtain ⟨rfl, hle⟩ := advance_eq_ok (of_returns_lift hadv)
      rw [emitNum_index (of_returns_lift hnum)] at hle ⊢
      rw [nextIndex_num hlex]
      exact ⟨rfl, hle⟩
    · rw [mtobBody_stuck hi hlex] at h
      cases of_returns_pure h
      rw [nextIndex_stuck hlex]
      exact ⟨rfl, hi.index_le⟩
  · rw [mtobBody_done hi] at h
    cases of_returns_pure h

theorem mtobBody_exit {st : Scan} {r : Option Scan} (h : Returns (mtobBody P s st) (.exit r)) :
    ¬ InScan s st.scandIndex := by
  intro hi
  rcases lexeme_cases P (drop_ne_nil hi.lt_length) with
    ⟨c, cs, htxt, hc⟩ | ⟨cs, htxt⟩ | ⟨v, n, hlex⟩ | hlex
  · rw [mtobBody_op hi htxt hc] at h
    obtain ⟨st₁, -, h⟩ := (steady_mtobOp P _ _).of_returns_bind h
    cases of_returns_pure h
  · rw [mtobBody_blank hi htxt] at h
    cases of_returns_pure h
  · rw [mtobBody_num hi hlex] at h
    obtain ⟨st₁, -, h⟩ := (steady_lift _).of_returns_bind h
    obtain ⟨i, -, h⟩ := (steady_lift _).of_returns_bind h
    cases of_returns_pure h
  · rw [mtobBody_stuck hi hlex] at h
    cases of_returns_pure h

end StringStack

namespace DoubleStack

theorem steady_closeBody (P : Platform) (st : Pair) : Steady (closeBody P st) :=
  .ite ((steady_lift _).bind fun _ => steady_pure _) (steady_pure _)

theorem steady_reduceBody (P : Platform) (c : Char) (st : Pair) : Steady (reduceBody P c st) :=
  .ite ((steady_lift _).bind fun _ => .ite (steady_pure _) (steady_pure _)) (steady_pure _)

theorem steady_drainBody (P : Platform) (st : Pair) : Steady (drainBody P st) :=
  .ite (steady_pure _) ((steady_lift _).bind fun _ => steady_pure _)

theorem steady_calculateOp (P : Platform) (c : Char) (st : Pair) : Steady (calculateOp P c st) :=
  .ite (steady_lift _) <| .ite (steady_lift _) <|
    .ite ((steady_loop (steady_closeBody P) st).bind fun _ => steady_pure _)
      ((steady_loop (steady_reduceBody P c) st).bind fun _ => steady_lift _)

theorem steady_calculateBody (P : Platform) (s : List Char) (st : Scan) :
    Steady (calculateBody P s st) := by
  by_cases hi : InScan s st.scandIndex
  · rcases lexeme_cases P (drop_ne_nil hi.lt_length) with
      ⟨c, cs, htxt, hc⟩ | ⟨cs, htxt⟩ | ⟨v, n, hlex⟩ | hlex
    · rw [calculateBody_op hi htxt hc]
      exact (steady_calculateOp P _ _).bind fun _ => steady_pure _
    · rw [calculateBody_blank hi htxt]
      exact steady_pure _
    · rw [calculateBody_num hi hlex]
      exact (steady_lift _).bind fun _ => (steady_lift _).bind fun _ => steady_pure _
    · rw [calculateBody_stuck hi hlex]
      exact steady_pure _
  · rw [calculateBody_done hi]
    exact steady_pure _

theorem steady_evaluate (P : Platform) (s : List Char) : Steady (evaluate P s) :=
  (steady_loop (steady_calculateBody P s) _).bind (steady_loop (steady_drainBody P))

theorem steady_calculate (P : Platform) (s : List Char) : Steady (calculate P s) :=
  (steady_evaluate P s).bind fun _ => (steady_lift _).bind fun _ => (steady_lift _).bind fun _ =>
    steady_pure _

theorem calculateBody_next {st st' : Scan} (h : Returns (calculateBody P s st) (.next st')) :
    InScan s st.scandIndex ∧ st'.scandIndex = nextIndex P s st.scandIndex ∧
      (st'.scandIndex : ℤ) ≤ intMax := by
  by_cases hi : InScan s st.scandIndex
  · refine ⟨hi, ?_⟩
    have hsucc := hi.succ_le
    rcases lexeme_cases P (drop_ne_nil hi.lt_length) with
      ⟨c, cs, htxt, hc⟩ | ⟨cs, htxt⟩ | ⟨v, n, hlex⟩ | hlex
    · rw [calculateBody_op hi htxt hc] at h
      obtain ⟨pair, -, h⟩ := (steady_calculateOp P _ _).of_returns_bind h
      cases of_returns_pure h
      rw [nextIndex_op (by rw [htxt, lexeme_op cs hc])]
      exact ⟨rfl, hsucc⟩
    · rw [calculateBody_blank hi htxt] at h
      cases of_returns_pure h
      rw [nextIndex_blank (by rw [htxt, lexeme_blank])]
      exact ⟨rfl, hsucc⟩
    · rw [calculateBody_num hi hlex] at h
      obtain ⟨npst, -, h⟩ := (steady_lift _).of_returns_bind h
      obtain ⟨i, hadv, h⟩ := (steady_lift _).of_returns_bind h
      cases of_returns_pure h
      obtain ⟨rfl, hle⟩ := advance_eq_ok (of_returns_lift hadv)
      rw [nextIndex_num hlex]
      exact ⟨rfl, hle⟩
    · rw [calculateBody_stuck hi hlex] at h
      cases of_returns_pure h
      rw [nextIndex_stuck hlex]
      exact ⟨rfl, hi.index_le⟩
  · rw [calculateBody_done hi] at h
    cases of_returns_pure h

theorem calculateBody_exit {st : Scan} {r : Pair} (h : Returns (calculateBody P s st) (.exit r)) :
    ¬ InScan s st.scandIndex := by
  intro hi
  rcases lexeme_cases P (drop_ne_nil hi.lt_length) with
    ⟨c, cs, htxt, hc⟩ | ⟨cs, htxt⟩ | ⟨v, n, hlex⟩ | hlex
  · rw [calculateBody_op hi htxt hc] at h
    obtain ⟨pair, -, h⟩ := (steady_calculateOp P _ _).of_returns_bind h
    cases of_returns_pure h
  · rw [calculateBody_blank hi htxt] at h
    cases of_returns_pure h
  · rw [calculateBody_num hi hlex] at h
    obtain ⟨npst, -, h⟩ := (steady_lift _).of_returns_bind h
    obtain ⟨i, -, h⟩ := (steady_lift _).of_returns_bind h
    cases of_returns_pure h
  · rw [calculateBody_stuck hi hlex] at h
    cases of_returns_pure h

end DoubleStack

end GoodCommand.Calculator
