import Forth.Number.Binary64

/-! # Decimals and the floats they denote

A decimal is a natural times a power of ten. It denotes the float nearest to
it. The other way round, `shortest` finds the decimal with the fewest digits
that denotes a given float, and of those the nearest.
-/

namespace Forth

/-- The number `digits * 10 ^ exponent`. -/
structure Decimal where
  digits : Nat
  exponent : Int
deriving DecidableEq, Repr

namespace Decimal

open Binary64

def tenTo (e : Nat) : Nat := Nat.pow 10 e

def toBits (d : Decimal) : Nat :=
  match d.exponent with
  | .ofNat e => nearest (d.digits * tenTo e * one) 1
  | .negSucc e => nearest (d.digits * one) (tenTo (e + 1))

def compareTwice (v : Nat) (d : Decimal) : Ordering :=
  match d.exponent with
  | .ofNat e => compare (2 * v) (d.digits * tenTo e * one)
  | .negSucc e => compare (2 * v * tenTo (e + 1)) (d.digits * one)

def floorSteps (v : Nat) (exponent : Int) : Nat :=
  match exponent with
  | .ofNat e => v / (tenTo e * one)
  | .negSucc e => v * tenTo (e + 1) / one

def digitCount (n : Nat) : Nat :=
  (Nat.toDigits 10 n).length

def scale (v : Nat) : Int :=
  if one ≤ v then digitCount (v / one) else 1 - digitCount ((one - 1) / v)

/-- The decimal with steps of `10 ^ exponent` that lies nearest to the pattern
among those that denote it. Only the two neighbours of the magnitude can be it,
and of two equally near the upper one is taken. -/
def onGrid (bits : Nat) (exponent : Int) : Option Decimal :=
  let v := units bits
  let below : Decimal := { digits := floorSteps v exponent, exponent }
  let above : Decimal := { digits := below.digits + 1, exponent }
  let middle : Decimal := { digits := below.digits + above.digits, exponent }
  match decide (below.toBits = bits), decide (above.toBits = bits) with
  | true, true => if compareTwice v middle = .lt then some below else some above
  | true, false => some below
  | false, true => some above
  | false, false => none

def exact (bits : Nat) : Decimal :=
  { digits := units bits * Nat.pow 5 1074, exponent := -1074 }

/-- Moves zeros at the end of the digits into the exponent, at most `bound` of them. -/
def dropZeros : Nat → Decimal → Decimal
  | 0, d => d
  | bound + 1, d =>
    if d.digits % 10 = 0 then
      dropZeros bound { digits := d.digits / 10, exponent := d.exponent + 1 }
    else d

/-- The fewest digits that denote a pattern which is positive and finite. Coarse
grids are tried before fine ones; seventeen digits are enough for every float. -/
def shortest (bits : Nat) : Decimal :=
  let scale := scale (units bits)
  let found := (List.range 17).findSome? fun (n : Nat) => onGrid bits (scale - (n + 1 : Nat))
  let d := found.getD (exact bits)
  dropZeros (digitCount d.digits) d

end Decimal

end Forth
