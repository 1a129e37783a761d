import Forth.Proofs.Value.Numeral
import Forth.Value.Printer
import Mathlib

/-! # Values that are printed and read back

The text of an integer is an integer of the grammar, and that of a finite float a
decimal with a point or an exponent, so each is read as what it was. What is no
number and what is infinite have texts that are not read as anything.
-/

namespace Forth

namespace Binary64

/-- A float is made of its sign and its magnitude. -/
theorem ofMagnitude_magnitude (x : Float) : ofMagnitude (isNegative x) (magnitude x) = x := by
  have hsign : signBit = 2 ^ 63 := by decide
  have hlt := x.toBits.toNat_lt
  have hbits : (if isNegative x then signBit + magnitude x else magnitude x) = x.toBits.toNat := by
    by_cases hnegative : signBit ≤ x.toBits.toNat
    · have hx : isNegative x = true := decide_eq_true hnegative
      rw [if_pos hx, magnitude, hsign]
      omega
    · have hx : isNegative x ≠ true := fun h => hnegative (of_decide_eq_true h)
      rw [if_neg hx, magnitude, Nat.mod_eq_of_lt (Nat.lt_of_not_le hnegative)]
  rw [ofMagnitude, hbits, UInt64.ofNat_toNat, Float.ofBits_toBits]

end Binary64

namespace Value

open Literal Binary64

/-- The value is a number, and not infinite. -/
def Finite : Value → Prop
  | int _ => True
  | float x => magnitude x < infinity

instance : DecidablePred Finite
  | int _ => isTrue trivial
  | float x => inferInstanceAs (Decidable (magnitude x < infinity))

/-- The sign of a number, in front of what is written of its magnitude. -/
def minus (negative : Bool) : String := if negative then "-" else ""

theorem sign_minus (negative : Bool) : Sign (minus negative).toList negative := by
  cases negative with
  | false => exact .none
  | true => exact .minus

theorem repr_eq_minus (n : Int) : n.repr = minus (decide (n < 0)) ++ n.natAbs.repr := by
  rw [Int.repr_eq_if, minus]
  by_cases hn : n < 0
  · have habs : (-n).toNat = n.natAbs := by omega
    rw [if_neg (by omega), habs, decide_eq_true hn]
    rfl
  · have habs : n.toNat = n.natAbs := by omega
    rw [if_pos (by omega), habs, decide_eq_false hn]
    rfl

theorem signed_natAbs (n : Int) : signed (decide (n < 0)) n.natAbs = n := by
  by_cases hn : n < 0
  · rw [signed, if_pos (decide_eq_true hn)]
    omega
  · rw [signed, if_neg (by simpa using hn)]
    omega

theorem isInteger_render (n : Int64) : IsInteger (render (.int n)) n.toInt := by
  refine ⟨⟨10, ?_⟩, n.le_toInt, Int.le_of_lt_add_one n.toInt_lt⟩
  obtain ⟨ds, hds⟩ := exists_numeral_toDigits n.toInt.natAbs
  have htext : (render (.int n)).toList =
      (minus (decide (n.toInt < 0))).toList ++ [] ++ Nat.toDigits 10 n.toInt.natAbs := by
    change n.toInt.repr.toList = _
    rw [repr_eq_minus, String.toList_append, Nat.toList_repr, List.append_nil]
  refine ⟨_, _, [], _, ds, sign_minus _, .decimal, hds.group Nat.toDigits_ne_nil, htext, ?_⟩
  rw [hds.value, signed_natAbs]

theorem ofText?_render_int (n : Int64) : ofText? (render (.int n)) = some (.int n) :=
  ofText?_eq_int_iff.mpr (isInteger_render n)

theorem toList_render_float {x : Float} (hx : magnitude x < infinity) :
    (render (.float x)).toList =
      (minus (isNegative x)).toList ++ layout.decimal (.shortest (magnitude x)) := by
  have hrender : render (.float x) =
      minus (isNegative x) ++ String.ofList (layout.decimal (.shortest (magnitude x))) := by
    change layout.render x = _
    simp only [Layout.render, Nat.not_lt.mpr hx.le, hx.ne, if_false]
    rfl
  rw [hrender, String.toList_append, String.toList_ofList]

theorem ofText?_render_float {x : Float} (hx : magnitude x < infinity) :
    ofText? (render (.float x)) = some (.float x) := by
  have hbits := Decimal.toBits_shortest hx.le
  obtain ⟨d, hd, hdbits⟩ := Layout.spellsDecimal_decimal (show layout.pointZero = true from rfl)
    (sign_minus (isNegative x)) (hbits.trans_lt hx)
  have hmem := Layout.mem_decimal (show layout.pointZero = true from rfl)
    (.shortest (magnitude x))
  rw [← toList_render_float hx] at hd
  refine ofText?_eq_float_iff.mpr ⟨fun n hn => ?_, float?_eq_some_iff.mpr ⟨_, d, hd, ?_⟩⟩
  · obtain ⟨⟨radix, hinteger⟩, -⟩ := hn
    refine not_spellsInteger_of_mem hd ?_ radix n hinteger
    rw [toList_render_float hx]
    exact hmem.imp (List.mem_append_right _) (List.mem_append_right _)
  · rw [hdbits, hbits, ofMagnitude_magnitude]

/-- What is printed of a value that is finite is read as that value, and of another as nothing. -/
theorem ofText?_render_of_finite {v : Value} (hv : v.Finite) : ofText? v.render = some v := by
  cases v with
  | int n => exact ofText?_render_int n
  | float x => exact ofText?_render_float hv

theorem ofText?_render_of_not_finite {v : Value} (hv : ¬v.Finite) : ofText? v.render = none := by
  cases v with
  | int n => exact absurd trivial hv
  | float x =>
    change ofText? (layout.render x) = none
    simp only [Layout.render]
    rcases Nat.lt_or_eq_of_le (Nat.le_of_not_lt hv) with hnan | hinfinite
    · rw [if_pos hnan]
      rfl
    · rw [if_neg (Nat.not_lt.mpr hinfinite.ge), if_pos hinfinite.symm]
      cases isNegative x <;> rfl

end Value

end Forth
