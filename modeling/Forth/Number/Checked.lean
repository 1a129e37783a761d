/-! # Integers of 64 bits, checked

An operation has no result where the exact one is no integer of 64 bits, and a
division has none by zero. Division rounds down. It is made of the steps that a
machine has: a quotient that is cut off, a remainder, and a subtraction of one
where the quotient was cut off upwards.
-/

namespace Forth.Checked

def ofInt? (n : Int) : Option Int64 :=
  if Int64.minValue.toInt ≤ n ∧ n ≤ Int64.maxValue.toInt then some (Int64.ofInt n) else none

def add? (a b : Int64) : Option Int64 := ofInt? (a.toInt + b.toInt)

def sub? (a b : Int64) : Option Int64 := ofInt? (a.toInt - b.toInt)

def mul? (a b : Int64) : Option Int64 := ofInt? (a.toInt * b.toInt)

/-- The quotient without its fraction. -/
def quotient? (a b : Int64) : Option Int64 :=
  if b = 0 then none else ofInt? (a.toInt.tdiv b.toInt)

/-- What the quotient leaves. There is none where there is no quotient, even if
it would be zero. -/
def remainder? (a b : Int64) : Option Int64 :=
  if b = 0 ∨ a = Int64.minValue ∧ b = -1 then none else some (a % b)

def floorDiv? (a b : Int64) : Option Int64 := do
  let quotient ← quotient? a b
  let remainder ← remainder? a b
  if remainder ≠ 0 ∧ decide (a < 0) ≠ decide (b < 0) then sub? quotient 1
  else return quotient

end Forth.Checked
