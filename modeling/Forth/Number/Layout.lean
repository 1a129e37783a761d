import Forth.Number.Decimal

/-! # Writing floats

A layout says how the digits of a float are set out. The digits themselves are
always the fewest that denote it.
-/

namespace Forth

structure Layout where
  /-- Numbers from this power of ten on are written with an exponent. -/
  exponentFrom : Option Nat
  /-- Whether a whole number shows that its fraction is zero. -/
  pointZero : Bool
  notANumber : String
  infinite : String

namespace Layout

def positional (l : Layout) (d : Decimal) : List Char :=
  match d.exponent with
  | .ofNat e => Nat.toDigits 10 (d.digits * Decimal.tenTo e) ++ if l.pointZero then ['.', '0'] else []
  | .negSucc e =>
    let places := e + 1
    Nat.toDigits 10 (d.digits / Decimal.tenTo places) ++ '.' ::
      (Nat.toDigits 10 (d.digits % Decimal.tenTo places)).leftpad places '0'

def scientific (d : Decimal) : List Char :=
  let digits := Nat.toDigits 10 d.digits
  let power := d.exponent + (digits.length - 1 : Nat)
  let fraction := if digits.length = 1 then [] else '.' :: digits.drop 1
  digits.take 1 ++ fraction ++ 'e' :: (toString power).toList

def decimal (l : Layout) (d : Decimal) : List Char :=
  match l.exponentFrom with
  | none => l.positional d
  | some power =>
    if (power : Int) < d.exponent + Decimal.digitCount d.digits then scientific d
    else l.positional d

def render (l : Layout) (x : Float) : String :=
  let bits := Binary64.magnitude x
  let sign := if Binary64.isNegative x then "-" else ""
  if Binary64.infinity < bits then l.notANumber
  else if bits = Binary64.infinity then sign ++ l.infinite
  else sign ++ String.ofList (l.decimal (.shortest bits))

end Layout

end Forth
