import Forth.Dictionary.Behavior

/-! # What an invocation leads to

While a behavior is invoked others are: the steps of a replay, at every depth,
and the comments in the text of a definition. They all weigh less, so nothing is
ever invoked inside of itself.
-/

namespace Forth.Behavior

variable {κ : Type}

/-- While the first is invoked the second can be. -/
inductive Invokes : Behavior κ → Behavior κ → Prop
  | comment : Invokes (.primitive .colon) (.primitive .comment)
  | step {steps : List (Step κ)} {step : Step κ} : step ∈ steps → Invokes (.compiled steps) step.1
  | deeper {steps : List (Step κ)} {step : Step κ} {b : Behavior κ} :
      step ∈ steps → Invokes step.1 b → Invokes (.compiled steps) b

/-- How many steps the machine takes to invoke the behavior, apart from those in which a
definition reads its text. -/
def weight : Behavior κ → Nat
  | primitive p => if p = .colon then 2 else 1
  | literal _ | host _ => 1
  | compiled steps => 2 + total steps
where
  total : List (Behavior κ × String) → Nat
    | [] => 0
    | (b, _) :: rest => 1 + b.weight + total rest

theorem weight_lt_total {steps : List (Step κ)} {step : Step κ} (h : step ∈ steps) :
    step.1.weight < weight.total steps := by
  induction steps with
  | nil => cases h
  | cons first rest ih =>
    rw [weight.total]
    rcases List.mem_cons.mp h with rfl | h
    · omega
    · have hrest := ih h
      omega

theorem Invokes.weight_lt {b c : Behavior κ} (h : Invokes b c) : c.weight < b.weight := by
  induction h with
  | comment => exact Nat.lt_succ_self 1
  | step hstep =>
    have hlt := weight_lt_total hstep
    rw [weight]
    omega
  | deeper hstep _ ih =>
    have hlt := weight_lt_total hstep
    rw [weight]
    omega

end Forth.Behavior
