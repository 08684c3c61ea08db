import Mathlib

/-! Strings in the buffers of C programs. -/

namespace GoodCommand

/-- A C string: the characters before the terminating NUL. -/
structure CString where
  chars : List Char
  noNul : '\x00' ∉ chars

namespace CString

def len (s : CString) : ℤ := s.chars.length

end CString

def cString (buf : List Char) : List Char := buf.takeWhile (· ≠ '\x00')

/-- Stores the characters `txt` from index `i` on; `overrun` is the fault of a buffer that ends
before the given index. -/
def store {ε : Type} (overrun : ℕ → ε) (buf : List Char) (i : ℕ) (txt : List Char) :
    Except ε (List Char) :=
  if i + txt.length ≤ buf.length then .ok (buf.take i ++ txt ++ buf.drop (i + txt.length))
  else .error (overrun (i + txt.length))

def buffer (cap : ℕ) (txt : List Char) : List Char :=
  txt ++ List.replicate (cap - txt.length) '\x00'

theorem store_buffer {ε : Type} {overrun : ℕ → ε} {cap : ℕ} {txt src : List Char}
    (h : txt.length + src.length ≤ cap) :
    store overrun (buffer cap txt) txt.length src = .ok (buffer cap (txt ++ src)) := by
  have hfit : txt.length + src.length ≤ (buffer cap txt).length := by
    simp only [buffer, List.length_append, List.length_replicate]
    omega
  have hsub : cap - txt.length - src.length = cap - (txt.length + src.length) := by omega
  have hdrop : txt.drop (txt.length + src.length) = [] := List.drop_of_length_le (by omega)
  rw [store, if_pos hfit]
  simp [buffer, List.drop_append, hsub, hdrop]

theorem buffer_append_nul {cap : ℕ} {txt : List Char} (h : txt.length < cap) :
    buffer cap (txt ++ ['\x00']) = buffer cap txt := by
  have hcap : cap - txt.length = (cap - (txt ++ ['\x00']).length) + 1 := by
    simp only [List.length_append, List.length_singleton]
    omega
  rw [buffer, buffer, hcap, List.replicate_succ]
  simp

theorem cString_buffer {cap : ℕ} {txt : List Char} (h : '\x00' ∉ txt) :
    cString (buffer cap txt) = txt := by
  have hall : ∀ c ∈ txt, (fun c => decide (c ≠ '\x00')) c = true := by
    intro c hc
    simpa using fun h0 : c = '\x00' => h (h0 ▸ hc)
  rw [cString, buffer, List.takeWhile_append_of_pos hall]
  cases cap - txt.length <;> simp [List.replicate_succ]

theorem buffer_inj {cap : ℕ} {txt txt' : List Char} (h : '\x00' ∉ txt) (h' : '\x00' ∉ txt')
    (heq : buffer cap txt = buffer cap txt') : txt = txt' := by
  rw [← @cString_buffer cap _ h, heq, cString_buffer h']

theorem length_buffer {cap : ℕ} {txt : List Char} (h : txt.length ≤ cap) :
    (buffer cap txt).length = cap := by
  simp only [buffer, List.length_append, List.length_replicate]
  omega

theorem buffer_succ {cap : ℕ} {txt : List Char} (h : txt.length ≤ cap) :
    buffer (cap + 1) txt = buffer cap txt ++ ['\x00'] := by
  rw [buffer, buffer, Nat.sub_add_comm h, List.replicate_succ', List.append_assoc]

theorem buffer_full {cap : ℕ} {txt : List Char} (h : cap ≤ txt.length) : buffer cap txt = txt := by
  rw [buffer, Nat.sub_eq_zero_of_le h, List.replicate_zero, List.append_nil]

theorem nul_mem_buffer {cap : ℕ} {txt : List Char} (h : txt.length < cap) :
    '\x00' ∈ buffer cap txt := by
  have hpos : cap - txt.length ≠ 0 := by omega
  simp [buffer, hpos]

end GoodCommand
