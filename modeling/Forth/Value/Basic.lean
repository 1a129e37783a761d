import Forth.Number.Binary64
import Forth.Number.Checked

/-! # Values

The stack holds integers of 64 bits and floats. Arithmetic on two integers is
exact where the result is an integer that fits. In every other case both
operands become floats and the operation is that of floats.
-/

namespace Forth

inductive Value where
  | int (n : Int64)
  | float (x : Float)
deriving DecidableEq

namespace Value

def ofInt? (n : Int) : Option Value :=
  if Int64.minValue.toInt ≤ n ∧ n ≤ Int64.maxValue.toInt then some (.int (Int64.ofInt n))
  else none

def isInt : Value → Bool
  | int _ => true
  | float _ => false

def isFloat : Value → Bool
  | int _ => false
  | float _ => true

def toFloat : Value → Float
  | int n => Binary64.ofInt n.toInt
  | float x => x

/-- The value as an integer. The fraction of a float is cut off, a float beyond
the range becomes the end of the range, and what is no number becomes zero. -/
def toInt64 : Value → Int64
  | int n => n
  | float x =>
    if Binary64.infinity < Binary64.magnitude x then 0
    else Int64.ofInt
      (max Int64.minValue.toInt (min Int64.maxValue.toInt (Binary64.truncate x)))

def arithmetic (checked : Int64 → Int64 → Option Int64) (rounded : Float → Float → Float) :
    Value → Value → Value
  | int a, int b =>
    match checked a b with
    | some n => int n
    | none => float (rounded (int a).toFloat (int b).toFloat)
  | a, b => float (rounded a.toFloat b.toFloat)

instance : Add Value where
  add := arithmetic Checked.add? (· + ·)

instance : Sub Value where
  sub := arithmetic Checked.sub? (· - ·)

instance : Mul Value where
  mul := arithmetic Checked.mul? (· * ·)

/-- The quotient, rounded down if both are integers. There is none for an
integer divided by the integer zero. -/
def div? : Value → Value → Option Value
  | int a, int b =>
    if b = 0 then none else some (arithmetic Checked.floorDiv? (· / ·) (int a) (int b))
  | a, b => some (arithmetic Checked.floorDiv? (· / ·) a b)

/-- Equality of numbers of one kind: what is no number equals nothing, the two
zeros are equal, and an integer never equals a float. -/
def sameNumber : Value → Value → Bool
  | int a, int b => a == b
  | float x, float y => x == y
  | _, _ => false

end Value

end Forth
