import Forth.Proofs.Action
import Forth.Session.Evaluate

/-! # What behaviors are built from

A compiled behavior holds its steps, so what it is built from does not change.
A property of actions that holds of the primitives it is built from, and of one
step followed by others, holds of the whole replay.
-/

namespace Forth

namespace Behavior

variable {κ σ : Type}

/-- Every step, at every depth, pushes a number or is a primitive that is allowed. -/
inductive BuiltFrom (allowed : Primitive → Prop) : Behavior κ → Prop
  | primitive {p : Primitive} : allowed p → BuiltFrom allowed (.primitive p)
  | literal (v : Value) : BuiltFrom allowed (.literal v)
  | compiled {steps : List (Step κ)} :
      (∀ step ∈ steps, BuiltFrom allowed step.1) → BuiltFrom allowed (.compiled steps)

theorem BuiltFrom.of_no_host (b : Behavior Empty) : BuiltFrom (fun _ => True) b :=
  match b with
  | .primitive _ => .primitive trivial
  | .literal v => .literal v
  | .compiled steps => .compiled fun step _ => of_no_host step.1
  | .host k => nomatch k
termination_by b
decreasing_by
  have hstep : sizeOf step < sizeOf steps := List.sizeOf_lt_of_mem ‹step ∈ steps›
  have hfst : sizeOf step = 1 + sizeOf step.1 + sizeOf step.2 := rfl
  simp only [compiled.sizeOf_spec]
  omega

/-- An induction on the tree of steps, and on the list of them in each compiled behavior. -/
@[elab_as_elim]
theorem steps_induction {motive : Behavior Empty → Prop} (b : Behavior Empty)
    (primitive : ∀ p, motive (.primitive p)) (literal : ∀ v, motive (.literal v))
    (nil : motive (.compiled []))
    (cons : ∀ step rest, motive step.1 → motive (.compiled rest) →
      motive (.compiled (step :: rest))) : motive b := by
  have hb := BuiltFrom.of_no_host b
  induction hb with
  | primitive => exact primitive _
  | literal v => exact literal v
  | @compiled steps _ ih =>
    induction steps with
    | nil => exact nil
    | cons step rest ihr =>
      refine cons step rest (ih step List.mem_cons_self) (ihr (fun x _ => .of_no_host x.1) ?_)
      exact fun x hx => ih x (List.mem_cons_of_mem _ hx)

section Steps

variable {allowed : Primitive → Prop} {step : Step κ} {rest : List (Step κ)}

theorem BuiltFrom.nil : BuiltFrom allowed (.compiled ([] : List (Step κ))) :=
  .compiled nofun

theorem BuiltFrom.cons (hstep : BuiltFrom allowed step.1) (hrest : BuiltFrom allowed (.compiled rest)) :
    BuiltFrom allowed (.compiled (step :: rest)) := by
  cases hrest with
  | compiled hrest => exact .compiled (List.forall_mem_cons.mpr ⟨hstep, hrest⟩)

theorem BuiltFrom.of_cons (h : BuiltFrom allowed (.compiled (step :: rest))) :
    BuiltFrom allowed step.1 ∧ BuiltFrom allowed (.compiled rest) := by
  cases h with
  | compiled h => exact ⟨h step List.mem_cons_self, .compiled fun x hx => h x (.tail _ hx)⟩

end Steps

def replayStep (first rest : SessionM κ σ Unit) : SessionM κ σ Unit := do
  if (← get).exiting then return
  first
  rest

theorem replayStep_of_exiting {first rest : SessionM κ σ Unit} {s : Session κ σ}
    (h : s.exiting = true) : replayStep first rest s = .ok () s := by
  rw [replayStep, get_bind_apply, h]
  rfl

theorem replayStep_of_not_exiting {first rest : SessionM κ σ Unit} {s : Session κ σ}
    (h : s.exiting = false) : replayStep first rest s = (do first; rest : SessionM κ σ Unit) s := by
  rw [replayStep, get_bind_apply, h]
  rfl

section Invoke

variable (define : SessionM κ σ Unit) (host : Host κ σ)

theorem invokeWith_cons (step : Step κ) (rest : List (Step κ)) (name : String) :
    (compiled (step :: rest)).invokeWith define host name =
      replayStep (step.1.invokeWith define host step.2)
        ((compiled rest).invokeWith define host name) := rfl

variable {define host} {P : SessionM κ σ Unit → Prop}

theorem BuiltFrom.invokeWith_induction {allowed : Primitive → Prop} {b : Behavior κ}
    (hb : BuiltFrom allowed b)
    (primitive : ∀ p name, allowed p → P (p.run define name))
    (literal : ∀ v, P (Session.push v))
    (done : P (pure ()))
    (step : ∀ first rest, P first → P rest → P (replayStep first rest)) (name : String) :
    P (b.invokeWith define host name) := by
  induction hb generalizing name with
  | primitive hp => exact primitive _ name hp
  | literal v => exact literal v
  | @compiled steps _ ih =>
    induction steps with
    | nil => exact done
    | cons first rest ihr =>
      rw [invokeWith_cons]
      refine step _ _ (ih first List.mem_cons_self first.2) (ihr ?_ ?_)
      · intro s hs
        exact ‹∀ step ∈ first :: rest, BuiltFrom allowed step.1› s (List.mem_cons_of_mem _ hs)
      · intro s hs
        exact ih s (List.mem_cons_of_mem _ hs)

end Invoke

section Replay

variable {host : Host κ σ} {b : Behavior κ} {word name : String} {rest : List (Step κ)}
  {s t : Session κ σ}

theorem invoke_cons_of_exiting (hexit : s.exiting = true) :
    invoke host (compiled ((b, word) :: rest)) name s = .ok () s := by
  rw [invoke, invokeWith_cons]
  exact replayStep_of_exiting hexit

theorem invoke_cons_of_ok (hexit : s.exiting = false) (h : invoke host b word s = .ok () t) :
    invoke host (compiled ((b, word) :: rest)) name s = invoke host (compiled rest) name t := by
  rw [invoke, invokeWith_cons, replayStep_of_not_exiting hexit]
  exact bind_of_ok h

theorem invoke_cons_of_error {failure : Failure} (hexit : s.exiting = false)
    (h : invoke host b word s = .error failure t) :
    invoke host (compiled ((b, word) :: rest)) name s = .error failure t := by
  rw [invoke, invokeWith_cons, replayStep_of_not_exiting hexit]
  exact bind_of_error h

end Replay

end Behavior

end Forth
