import Forth.Number.Layout
import Forth.Value.Basic

/-! # The text of a value and of a stack

A float always shows a fraction or an exponent, so that it can be told apart
from an integer.
-/

namespace Forth

namespace Value

/-- Positional below 10^16, with at least one digit after the point. -/
def layout : Layout where
  exponentFrom := some 16
  pointZero := true
  notANumber := "NaN"
  infinite := "Infinity"

/-- Always positional, a whole number without a point. -/
def plainLayout : Layout where
  exponentFrom := none
  pointZero := false
  notANumber := "NaN"
  infinite := "inf"

def renderWith (l : Layout) : Value → String
  | int n => toString n.toInt
  | float x => l.render x

def render : Value → String :=
  renderWith layout

def renderPlain : Value → String :=
  renderWith plainLayout

def kindMark : Value → String
  | int _ => "i"
  | float _ => "f"

def describeWith (l : Layout) (v : Value) : String :=
  s!"{v.renderWith l} {v.kindMark}"

def describe : Value → String :=
  describeWith layout

def describePlain : Value → String :=
  describeWith plainLayout

end Value

abbrev Stack := List Value

def Stack.render (s : Stack) : String :=
  let values := ", ".intercalate (s.reverse.map Value.render)
  s!"<{s.length}> [{values}]"

end Forth
