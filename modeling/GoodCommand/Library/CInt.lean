import Mathlib

/-! The C type `int`, of 32 bits. -/

namespace GoodCommand

def intMin : ℤ := -2147483648

def intMax : ℤ := 2147483647

/-- `z` is the value of some `int`. -/
abbrev FitsInt (z : ℤ) : Prop := intMin ≤ z ∧ z ≤ intMax

def CInt := {z : ℤ // intMin ≤ z ∧ z ≤ intMax}

namespace CInt

instance : DecidableEq CInt := inferInstanceAs (DecidableEq {z : ℤ // intMin ≤ z ∧ z ≤ intMax})

instance : LinearOrder CInt := inferInstanceAs (LinearOrder {z : ℤ // intMin ≤ z ∧ z ≤ intMax})

instance : Coe CInt ℤ := ⟨Subtype.val⟩

def zero : CInt := ⟨0, by decide⟩

def ofInt? (z : ℤ) : Option CInt := if h : intMin ≤ z ∧ z ≤ intMax then some ⟨z, h⟩ else none

theorem ofInt?_eq_some {z : ℤ} (h : intMin ≤ z ∧ z ≤ intMax) : ofInt? z = some ⟨z, h⟩ := dif_pos h

theorem ofInt?_val (v : CInt) : ofInt? v.val = some v := dif_pos v.property

theorem min_val (a b : CInt) : (min a b).val = min a.val b.val := by
  rcases le_total a b with hle | hle
  · rw [min_eq_left hle]
    exact (min_eq_left (show a.val ≤ b.val from hle)).symm
  · rw [min_eq_right hle]
    exact (min_eq_right (show b.val ≤ a.val from hle)).symm

/-- The value of `z` in 32 bits. -/
def wrap (z : ℤ) : CInt :=
  ⟨Int.bmod z 4294967296, by
    have h1 := Int.le_bmod (x := z) (m := 4294967296) (by decide)
    have h2 := Int.bmod_lt (x := z) (m := 4294967296) (by decide)
    unfold intMin intMax
    omega⟩

theorem wrap_val (z : ℤ) : (wrap z).val = Int.bmod z 4294967296 := rfl

theorem wrap_of_fits {z : ℤ} (h : FitsInt z) : (wrap z).val = z := by
  unfold FitsInt intMin intMax at h
  rw [wrap_val, Int.bmod_def]
  split <;> omega

theorem wrap_above {z : ℤ} (h : intMax < z) (h' : z < 4294967296) :
    (wrap z).val = z - 4294967296 := by
  unfold intMax at h
  rw [wrap_val, Int.bmod_def]
  split <;> omega

theorem wrap_below {z : ℤ} (h : z < intMin) (h' : -4294967296 ≤ z) :
    (wrap z).val = z + 4294967296 := by
  unfold intMin at h
  rw [wrap_val, Int.bmod_def]
  split <;> omega

theorem lt_or_lt_of_not_fits {z : ℤ} (h : ¬ FitsInt z) : intMax < z ∨ z < intMin := by
  unfold FitsInt at h
  omega

theorem wrap_self (v : CInt) : wrap v.val = v := Subtype.ext (wrap_of_fits v.property)

theorem wrap_add (y z : ℤ) : wrap ((wrap y).val + z) = wrap (y + z) :=
  Subtype.ext Int.bmod_add_bmod

theorem wrap_le {z : ℤ} (h : 0 ≤ z) : (wrap z).val ≤ z := by
  rw [wrap_val, Int.bmod_def]
  split <;> omega

theorem wrap_succ {i j : CInt} (h : i < j) : (wrap (i.val + 1)).val = i.val + 1 := by
  have hlt : i.val < j.val := h
  have hi := i.property.1
  have hj := j.property.2
  exact wrap_of_fits ⟨by omega, by omega⟩

theorem wrap_pred {i : CInt} (h : 0 ≤ i.val) : (wrap (i.val - 1)).val = i.val - 1 := by
  have hi := i.property.2
  exact wrap_of_fits ⟨by unfold intMin; omega, by omega⟩

theorem wrap_natCast {n : ℕ} (h : (n : ℤ) ≤ intMax) : (wrap n).val = n :=
  wrap_of_fits ⟨by unfold intMin; omega, h⟩

theorem sign_wrap_sub_iff (x y : CInt) :
    SignType.sign (wrap (x.val - y.val)).val = SignType.sign (x.val - y.val) ↔
      FitsInt (x.val - y.val) := by
  refine ⟨fun h => ?_, fun h => by rw [wrap_of_fits h]⟩
  by_contra hfit
  have hx := x.property
  have hy := y.property
  unfold intMin intMax at hx hy
  rcases lt_or_lt_of_not_fits hfit with hlt | hlt
  · have hpos : 0 < x.val - y.val := lt_trans (by decide) hlt
    rw [wrap_above hlt (by omega), sign_neg (by omega), sign_pos hpos] at h
    cases h
  · have hneg : x.val - y.val < 0 := lt_trans hlt (by decide)
    rw [wrap_below hlt (by omega), sign_pos (by omega), sign_neg hneg] at h
    cases h

theorem natAbs_lt (v : CInt) : v.val.natAbs < 10 ^ 10 := by
  have h := v.property
  unfold intMin intMax at h
  omega

end CInt

end GoodCommand
