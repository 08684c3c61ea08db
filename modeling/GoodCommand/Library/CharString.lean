import GoodCommand.Library.Arr

/-! C strings as the values of their characters, which depend on whether `char` is signed. -/

namespace GoodCommand

inductive CharType where
  | signed
  | unsigned
  deriving DecidableEq

namespace CharType

/-- `CHAR_MIN` -/
def min : CharType → ℤ
  | signed => -128
  | unsigned => 0

/-- `CHAR_MAX` -/
def max : CharType → ℤ
  | signed => 127
  | unsigned => 255

end CharType

/-- The characters before the terminating NUL. -/
structure CharString (T : CharType) where
  chars : List ℤ
  inRange : ∀ c ∈ chars, T.min ≤ c ∧ c ≤ T.max
  noNul : 0 ∉ chars

namespace CharString

variable {T : CharType}

/-- `strlen(s)` -/
def len (s : CharString T) : ℤ := s.chars.length

/-- `s[j]`; the NUL may be read, too. -/
def charAt (s : CharString T) (j : ℤ) : Except OutOfBounds ℤ := Arr.get (s.chars ++ [0]) j

theorem charAt_of_append {s : CharString T} {pre suf : List ℤ} {c : ℤ}
    (h : s.chars = pre ++ c :: suf) {j : ℤ} (hj : j = pre.length) : s.charAt j = .ok c := by
  rw [charAt, h, List.append_assoc, List.cons_append]
  exact Arr.get_append_cons _ _ _ hj

theorem charAt_len (s : CharString T) : s.charAt s.len = .ok 0 := Arr.get_append_cons _ _ _ rfl

theorem ne_zero {s : CharString T} {c : ℤ} (h : c ∈ s.chars) : c ≠ 0 := by
  rintro rfl
  exact s.noNul h

end CharString

end GoodCommand
