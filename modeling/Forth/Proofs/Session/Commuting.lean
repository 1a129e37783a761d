import Forth.Proofs.Behavior.BuiltFrom
import Forth.Proofs.Primitive.Effect

/-! # Changes that an action does not see

A change of the session can be made before an action or after it. A primitive
that works on the stack cannot tell the difference, if the change leaves alone
the stack, the output, and whether the end was asked for.
-/

namespace Forth

open Session

variable {κ σ α β : Type} {f : Session κ σ → Session κ σ}

def Commutes (f : Session κ σ → Session κ σ) (m : SessionM κ σ α) : Prop :=
  ∀ s, m (f s) = (m s).mapState f

/-- The change neither reads nor writes what the primitives work on. -/
structure Session.Apart (f : Session κ σ → Session κ σ) : Prop where
  stack : ∀ s stack, f { s with stack } = { f s with stack }
  output : ∀ s output, f { s with output } = { f s with output }
  exiting : ∀ s exiting, f { s with exiting } = { f s with exiting }
  sameOutput : ∀ s, (f s).output = s.output
  sameExiting : ∀ s, (f s).exiting = s.exiting

namespace Commutes

theorem pure (f : Session κ σ → Session κ σ) (a : α) :
    Commutes f (pure a : SessionM κ σ α) := fun _ => rfl

theorem bind {m : SessionM κ σ α} {g : α → SessionM κ σ β} (hm : Commutes f m)
    (hg : ∀ a, Commutes f (g a)) : Commutes f (m >>= g) :=
  fun s => bind_mapState (hm s) fun a t _ => hg a t

theorem modify {g : Session κ σ → Session κ σ} (hg : ∀ s, g (f s) = f (g s)) :
    Commutes f (modify g : SessionM κ σ Unit) := by
  intro s
  rw [modify_apply, modify_apply, hg]
  rfl

theorem onSource (hf : ∀ s source, f { s with source } = { f s with source })
    (hsame : ∀ s, (f s).source = s.source) (m : SourceM α) :
    Commutes f (onSource m : SessionM κ σ α) := by
  intro s
  simp only [Session.onSource, hsame]
  cases m s.source with
  | ok a source => exact congrArg (EStateM.Result.ok a) (hf s source).symm
  | error failure source => exact congrArg (EStateM.Result.error failure) (hf s source).symm

theorem onOutput (hf : ∀ s output, f { s with output } = { f s with output })
    (hsame : ∀ s, (f s).output = s.output) (m : OutputM α) :
    Commutes f (onOutput m : SessionM κ σ α) := by
  intro s
  simp only [Session.onOutput, hsame]
  cases m s.output with
  | ok a output => exact congrArg (EStateM.Result.ok a) (hf s output).symm
  | error failure output => exact congrArg (EStateM.Result.error failure) (hf s output).symm

theorem perform (hf : Session.Apart f) (e : Primitive.Effect) :
    Commutes f (e.perform : SessionM κ σ Unit) := by
  have hwrite : Commutes f (Primitive.Effect.write e.text : SessionM κ σ Unit) := by
    cases e.text with
    | none => exact pure f ()
    | some text => exact onOutput hf.output hf.sameOutput _
  refine (modify fun s => (hf.stack s e.held).symm).bind fun _ =>
    hwrite.bind fun _ => modify fun s => ?_
  have hstack := hf.stack { s with exiting := e.exits || s.exiting } e.left
  rw [hf.exiting] at hstack
  rw [hf.sameExiting]
  exact hstack.symm

theorem replayStep (hf : ∀ s, (f s).exiting = s.exiting) {first rest : SessionM κ σ Unit}
    (hfirst : Commutes f first) (hrest : Commutes f rest) :
    Commutes f (Behavior.replayStep first rest) := by
  intro s
  cases h : s.exiting with
  | true =>
    rw [Behavior.replayStep_of_exiting h, Behavior.replayStep_of_exiting ((hf s).trans h)]
    rfl
  | false =>
    rw [Behavior.replayStep_of_not_exiting h, Behavior.replayStep_of_not_exiting ((hf s).trans h)]
    exact hfirst.bind (fun _ => hrest) s

theorem invokeWith {define : SessionM κ σ Unit} {host : Host κ σ} {allowed : Primitive → Prop}
    {b : Behavior κ} (hb : b.BuiltFrom allowed) (hf : ∀ s, (f s).exiting = s.exiting)
    (hrun : ∀ p name, allowed p → Commutes f (p.run define name))
    (hpush : ∀ v, Commutes f (push v)) (name : String) :
    Commutes f (b.invokeWith define host name) :=
  hb.invokeWith_induction hrun hpush (pure f ()) (fun _ _ => replayStep hf) name

end Commutes

end Forth
