import Forth.Number.Decimal
import Forth.Value.Basic

/-! # Number literals

A digit group is one or more digits, with single underscores allowed between
two of them. An integer is an optional sign and a decimal group, or a group of
radix 16, 2 or 8 behind its mark. A float is an optional sign, a decimal group,
optionally a point and a second group, and optionally an exponent of plain
digits. A text that reads as an integer in range is one; a decimal integer out
of range reads as a float.
-/

namespace Forth.Literal

def digit? (radix : Nat) (c : Char) : Option Nat :=
  let value :=
    if '0' ≤ c ∧ c ≤ '9' then c.toNat - '0'.toNat
    else if 'a' ≤ c ∧ c ≤ 'z' then c.toNat - 'a'.toNat + 10
    else if 'A' ≤ c ∧ c ≤ 'Z' then c.toNat - 'A'.toNat + 10
    else radix
  if value < radix then some value else none

def group? (radix : Nat) : List Char → Option (List Nat)
  | [] => none
  | [c] => (digit? radix c).map ([·])
  | c :: '_' :: rest => do return (← digit? radix c) :: (← group? radix rest)
  | c :: rest => do return (← digit? radix c) :: (← group? radix rest)

def ofDigits (radix : Nat) (digits : List Nat) : Nat :=
  digits.foldl (radix * · + ·) 0

def splitSign : List Char → Bool × List Char
  | '-' :: rest => (true, rest)
  | '+' :: rest => (false, rest)
  | cs => (false, cs)

def splitRadix : List Char → Nat × List Char
  | '0' :: 'x' :: rest => (16, rest)
  | '0' :: 'b' :: rest => (2, rest)
  | '0' :: 'o' :: rest => (8, rest)
  | cs => (10, cs)

def integer? (cs : List Char) : Option Int := do
  let (negative, cs) := splitSign cs
  let (radix, cs) := splitRadix cs
  let n := ofDigits radix (← group? radix cs)
  return if negative then -(n : Int) else n

/-- The power of ten that the digits of an exponent spell. It stops growing once
it is far beyond the range of any float. -/
def power (digits : List Nat) : Nat :=
  digits.foldl (fun p d => if p < 65536 then 10 * p + d else p) 0

/-- The exponent behind the `e` of a float; a float without one has exponent zero. -/
def exponent? : List Char → Option Int
  | [] => some 0
  | _ :: cs => do
    let (negative, cs) := splitSign cs
    let digits ← cs.mapM (digit? 10)
    if digits.isEmpty then none
    else return if negative then -(power digits : Int) else power digits

def fraction? : List Char → Option (List Nat)
  | [] => some []
  | _ :: cs => group? 10 cs

def decimal? (cs : List Char) : Option (Bool × Decimal) := do
  let (negative, cs) := splitSign cs
  let (significand, tail) := cs.span fun c => c ≠ 'e' && c ≠ 'E'
  let (whole, point) := significand.span (· ≠ '.')
  let whole ← group? 10 whole
  let fraction ← fraction? point
  let exponent ← exponent? tail
  return (negative,
    { digits := ofDigits 10 (whole ++ fraction), exponent := exponent - fraction.length })

def float? (cs : List Char) : Option Float := do
  let (negative, d) ← decimal? cs
  return Binary64.ofMagnitude negative d.toBits

end Literal

/-- The number that a text spells, if it spells one. -/
def Value.ofText? (text : String) : Option Value :=
  (Literal.integer? text.toList >>= Value.ofInt?) <|>
    (Literal.float? text.toList).map .float

end Forth
