/-! # Binary floating point, exactly

The finite magnitudes of a `Float` are whole multiples of the least positive
one, 2^-1074. This module says which multiple a bit pattern stands for, and
which pattern lies nearest to a quotient of naturals, ties going to the even
pattern. Both are exact, on naturals of any size.
-/

namespace Forth.Binary64

/-- The number of units in one. -/
def one : Nat := 1 <<< 1074

/-- The first significand with all its 53 digits. -/
def leadingBit : Nat := 1 <<< 52

/-- The pattern of infinity. The patterns below it are the finite magnitudes. -/
def infinity : Nat := 0x7FF0000000000000

def units (bits : Nat) : Nat :=
  if bits < leadingBit then bits
  else (leadingBit + bits % leadingBit) <<< (bits / leadingBit - 1)

def divNearest (num den : Nat) : Nat :=
  let quotient := num / den
  let twice := 2 * (num % den)
  if twice < den || (twice == den && quotient % 2 == 0) then quotient else quotient + 1

/-- The pattern nearest to `num / den` units. The step between neighbours is a
power of two that leaves at most 53 digits, and a significand that rounds up to
54 digits carries into the exponent by itself. -/
def nearest (num den : Nat) : Nat :=
  let exponent := (num / den).log2 + 1 - 53
  min infinity (exponent * leadingBit + divNearest num (den <<< exponent))

def signBit : Nat := 1 <<< 63

def ofMagnitude (negative : Bool) (bits : Nat) : Float :=
  Float.ofBits (UInt64.ofNat (if negative then signBit + bits else bits))

def isNegative (x : Float) : Bool :=
  signBit ≤ x.toBits.toNat

/-- The pattern of `x` without its sign. It exceeds `infinity` if `x` is no number. -/
def magnitude (x : Float) : Nat :=
  x.toBits.toNat % signBit

def ofInt (n : Int) : Float :=
  ofMagnitude (n < 0) (nearest (n.natAbs * one) 1)

def truncate (x : Float) : Int :=
  let whole : Nat := units (magnitude x) / one
  if isNegative x then -whole else whole

end Forth.Binary64
