import GoodCommand.Calculator.StringStackDefs
import GoodCommand.Calculator.Yard

/-! The string stack and the output buffer of `224.c`: what each operation does to a stack that
holds given texts, and to a buffer that holds a given one. -/

namespace GoodCommand.Calculator.StringStack
open Fuel Shunting

theorem zeroed_eq {α : Type} (zero : α) {n : CInt} {m : ℕ} (h : n.val = m) :
    zeroed zero n = .ok (List.replicate m zero) := by
  rw [zeroed, h, if_pos (Int.natCast_nonneg m), Int.toNat_natCast]

theorem zeroed_neg {α : Type} (zero : α) {n : CInt} (h : n.val < 0) :
    zeroed zero n = .error .nullPointer := if_neg (not_le.mpr h)

theorem stackInit_eq (g : Globals) {len : CInt} {n : ℕ} (h : len.val = n)
    (hlt : len.val < intMax) : stackInit g len =
      .ok { g with stack := List.replicate (n + 1) ⟨CInt.zero, []⟩, stackLen := len } := by
  have hsize : (CInt.wrap (len.val + 1)).val = (n + 1 : ℕ) := by
    rw [h, ← Nat.cast_succ, CInt.wrap_natCast (by omega)]
  rw [stackInit, zeroed_eq _ hsize]
  rfl

structure Holds (g : Globals) (T : List (List Char)) : Prop where
  it_eq : g.it.val = T.length - 1
  entries : (g.stack.take T.length).map NumOp.numOp = T.reverse
  room : (g.stack.length : ℤ) = g.stackLen.val + 1

theorem holds_init {g : Globals} (h : g.it.val = -1) {len : CInt} {n : ℕ} (hlen : len.val = n)
    (cell : NumOp) :
    Holds { g with stack := List.replicate (n + 1) cell, stackLen := len } [] where
  it_eq := by simp [h]
  entries := by simp
  room := by simp only [List.length_replicate, hlen]; omega

theorem Holds.length_le {g : Globals} {T : List (List Char)} (h : Holds g T) :
    T.length ≤ g.stack.length := by
  have hlen := congrArg List.length h.entries
  simp only [List.length_map, List.length_take, List.length_reverse] at hlen
  omega

theorem Holds.isEmpty_iff {g : Globals} {T : List (List Char)} (h : Holds g T) :
    isEmpty g = true ↔ T = [] := by
  simp only [isEmpty, h.it_eq, decide_eq_true_eq, ← List.length_eq_zero_iff]
  omega

theorem Holds.stackTop_eq {g : Globals} {T : List (List Char)} (h : Holds g T) :
    (stackTop g).val = T.length - 1 := by
  unfold stackTop
  split_ifs with hne
  · exact h.it_eq
  · have := h.it_eq
    show (-1 : ℤ) = _
    omega

theorem Holds.stackAt {g g' : Globals} {t : List Char} {T : List (List Char)}
    (h : Holds g (t :: T)) (hg : g'.stack = g.stack) {i : CInt} (hi : i.val = T.length) :
    ∃ e, stackAt g' i = .ok e ∧ e.numOp = t := by
  have hlen := h.length_le
  simp only [List.length_cons] at hlen
  have hget : g.stack[T.length].numOp = t := by
    have hopt := congrArg (fun l => l[T.length]?) h.entries
    simpa [hlen] using hopt
  refine ⟨g.stack[T.length], ?_, hget⟩
  have hopt : g.stack[T.length]? = some g.stack[T.length] := List.getElem?_eq_getElem hlen
  simp [StringStack.stackAt, hg, hi, hopt]

theorem Holds.top {g : Globals} {t : List Char} {T : List (List Char)} (h : Holds g (t :: T)) :
    ∃ e, StringStack.stackAt g (stackTop g) = .ok e ∧ e.numOp = t :=
  h.stackAt rfl (by simpa using h.stackTop_eq)

theorem Holds.top_nil {g : Globals} (h : Holds g []) :
    StringStack.stackAt g (stackTop g) = .error (.stackIndex (-1)) := by
  have htop : (stackTop g).val = -1 := by simpa using h.stackTop_eq
  rw [StringStack.stackAt, htop, if_neg (by decide)]

@[simp] theorem stackPop_fst (g : Globals) : (stackPop g).1 = g.it := rfl

@[simp] theorem stackFree_it (g : Globals) : (stackFree g).it = g.it := rfl

theorem stackPop_val {g : Globals} (h : -1 ≤ g.it.val) : (stackPop g).2.it.val = g.it.val - 1 := by
  have hmax := g.it.property.2
  exact CInt.wrap_of_fits ⟨by unfold intMin; omega, by omega⟩

theorem Holds.pop {g : Globals} {t : List Char} {T : List (List Char)} (h : Holds g (t :: T)) :
    Holds (stackPop g).2 T ∧
      ∃ e, StringStack.stackAt (stackPop g).2 (stackPop g).1 = .ok e ∧ e.numOp = t := by
  have hit : g.it.val = T.length := by simpa using h.it_eq
  refine ⟨⟨?_, ?_, h.room⟩, h.stackAt rfl hit⟩
  · rw [stackPop_val (by omega), hit]
  · have hinit := congrArg (List.take T.length) h.entries
    simpa [← List.map_take, List.take_take, stackPop] using hinit

theorem Holds.push {g : Globals} {T : List (List Char)} (h : Holds g T)
    (hroom : T.length < g.stack.length) (isNum : CInt) {t : List Char}
    (ht : t.length < numMaxLen) :
    ∃ g', stackPush g isNum t = .ok g' ∧ Holds g' (t :: T) ∧ g'.stack.length = g.stack.length ∧
      g'.overflows = g.overflows := by
  have hit := h.it_eq
  have hcap := h.room
  have hmax := g.stackLen.property.2
  have hle : g.it.val ≤ g.stackLen.val := by omega
  have hnext : (CInt.wrap (g.it.val + 1)).val = T.length := by
    rw [hit, sub_add_cancel]
    exact CInt.wrap_natCast (by omega)
  refine ⟨{ g with it := CInt.wrap (g.it.val + 1), stack := g.stack.set T.length ⟨isNum, t⟩ }, ?_,
    ?_, ?_, rfl⟩
  · rw [stackPush, if_pos (show g.it ≤ g.stackLen from hle)]
    simp [hnext, hroom, ht]
  · refine ⟨by simp [hnext], ?_, by simpa using h.room⟩
    rw [List.length_cons, List.take_succ_eq_append_getElem (by simpa using hroom)]
    simp [List.take_set_of_le, h.entries]
  · simp

theorem length_printD_lt (v : CInt) : (printD v).length < numMaxLen :=
  lt_of_le_of_lt (length_printD_le v) (by decide)

/-! ### The buffer -/

theorem bufStore_buffer {cap : ℕ} {txt src : List Char} (h : txt.length + src.length ≤ cap) :
    bufStore (buffer cap txt) txt.length src = .ok (buffer cap (txt ++ src)) := store_buffer h

theorem bufStore_overrun {cap : ℕ} {txt src : List Char} (hle : txt.length ≤ cap)
    (h : cap < txt.length + src.length) :
    bufStore (buffer cap txt) txt.length src = .error (.bufferIndex (txt.length + src.length)) := by
  rw [bufStore, store, length_buffer hle, if_neg (not_le.mpr h)]

theorem strcpy_buffer {cap : ℕ} {txt src : List Char} (h : txt.length + src.length < cap) :
    strcpy (buffer cap txt) txt.length src = .ok (buffer cap (txt ++ src)) := by
  rw [strcpy, bufStore_buffer (by simp only [List.length_append, List.length_singleton]; omega),
    ← List.append_assoc, buffer_append_nul (by rw [List.length_append]; omega)]

end GoodCommand.Calculator.StringStack
