import Forth.Proofs.Behavior.BuiltFrom
import Forth.Proofs.Output
import Forth.Proofs.Session.Commuting
import Forth.Proofs.Source.Cursor

/-! # What needs no dictionary

Only `:` and the listing look at the dictionary, and only `:` at the place of
the token being evaluated. What is built from the other primitives does the
same under every dictionary and at every place, and changes neither.
-/

namespace Forth

open Session

variable {κ σ α β : Type}

def Session.inContext (s : Session κ σ) (d : Dictionary (Behavior κ)) (place : Option Location) :
    Session κ σ :=
  { s with dictionary := d, current := place }

def ContextFree (m : SessionM κ σ α) : Prop :=
  ∀ d place s, m (s.inContext d place) = (m s).mapState (·.inContext d place)

namespace ContextFree

theorem apart (d : Dictionary (Behavior κ)) (place : Option Location) :
    Session.Apart (·.inContext d place : Session κ σ → Session κ σ) where
  stack _ _ := rfl
  output _ _ := rfl
  exiting _ _ := rfl
  sameOutput _ := rfl
  sameExiting _ := rfl

theorem pure (a : α) : ContextFree (pure a : SessionM κ σ α) :=
  fun _ _ => Commutes.pure _ a

theorem bind {m : SessionM κ σ α} {f : α → SessionM κ σ β} (hm : ContextFree m)
    (hf : ∀ a, ContextFree (f a)) : ContextFree (m >>= f) :=
  fun d place => Commutes.bind (hm d place) fun a => hf a d place

theorem modify {f : Session κ σ → Session κ σ}
    (hf : ∀ s d place, f (s.inContext d place) = (f s).inContext d place) :
    ContextFree (modify f : SessionM κ σ Unit) :=
  fun d place => Commutes.modify fun s => hf s d place

theorem onSource (m : SourceM α) : ContextFree (onSource m : SessionM κ σ α) :=
  fun d place => Commutes.onSource (f := (·.inContext d place)) (fun _ _ => rfl) (fun _ => rfl) m

theorem replayStep {first rest : SessionM κ σ Unit} (hf : ContextFree first)
    (hr : ContextFree rest) : ContextFree (Behavior.replayStep first rest) := by
  intro d place s
  cases h : s.exiting with
  | true => rw [Behavior.replayStep_of_exiting h, Behavior.replayStep_of_exiting (by exact h)]; rfl
  | false =>
    rw [Behavior.replayStep_of_not_exiting h, Behavior.replayStep_of_not_exiting (by exact h)]
    exact hf.bind (fun _ => hr) d place s

theorem perform (e : Primitive.Effect) : ContextFree (e.perform : SessionM κ σ Unit) :=
  fun d place => Commutes.perform (apart d place) e

theorem run {p : Primitive} (hp : p ≠ .colon ∧ p ≠ .dotDictionary) (define : SessionM κ σ Unit)
    (name : String) : ContextFree (p.run define name) := by
  by_cases hc : p = .comment
  · subst hc
    exact (onSource _).bind fun _ => pure ()
  · intro d place s
    have hw : p.WorksOnStack := ⟨hp.2, hc, hp.1⟩
    rw [Primitive.run_eq_perform hw, Primitive.run_eq_perform hw]
    exact perform _ d place s

theorem invokeWith {define : SessionM κ σ Unit} {host : Host κ σ} {b : Behavior κ}
    (hb : b.BuiltFrom fun p => p ≠ .colon ∧ p ≠ .dotDictionary) (name : String) :
    ContextFree (b.invokeWith define host name) :=
  hb.invokeWith_induction (fun _ name hp => run hp define name)
    (fun _ => modify fun _ _ _ => rfl) (pure ()) (fun _ _ => replayStep) name

end ContextFree

end Forth
