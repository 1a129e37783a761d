import Forth.Proofs.Definition.Capture
import Forth.Proofs.Session.Reachable

/-! # What a session can become

Whoever embeds the language can run sources in a session, define words in it and
give them other names, in any order. What such a history does to the dictionary
is to bind names, one after the other. It never changes a word.
-/

namespace Forth

open Session

variable {σ : Type} {s t u : Session Empty σ}

/-- The second session can be what the first one has become. The stack, the input, the output and
the exit flag can be anything then. -/
inductive Follows (s : Session Empty σ) : Session Empty σ → Prop
  | refl : Follows s s
  | replaced {t : Session Empty σ} (stack : Stack) (source : Source) (output : Output)
      (current : Option Location) (exiting : Bool) :
      Follows s t → Follows s { t with stack, source, output, current, exiting }
  | defined {t : Session Empty σ} : Follows s t → Follows s (define .none t).state
  | compiled {t : Session Empty σ} (place : Location) (name : String) (body : List Token) :
      Follows s t → Follows s (defineFromTokens .none place name body t).state
  | aliased {t : Session Empty σ} {d : Dictionary (Behavior Empty)} (name existing : String) :
      t.dictionary.addAlias name existing = .ok d → Follows s t →
      Follows s { t with dictionary := d }

namespace Follows

theorem trans (h : Follows s t) (k : Follows t u) : Follows s u := by
  induction k with
  | refl => exact h
  | replaced stack source output current exiting _ ih =>
    exact ih.replaced stack source output current exiting
  | defined _ ih => exact ih.defined
  | compiled place name body _ ih => exact ih.compiled place name body
  | aliased name existing hd _ ih => exact ih.aliased name existing hd

theorem invariant (s : Session Empty σ) : Invariant (Follows s) where
  place t place h := h.replaced t.stack t.source t.output (some place) t.exiting
  push v t h := h.replaced (v :: t.stack) t.source t.output t.current t.exiting
  primitive p name t h := by
    by_cases hp : p = .colon
    · subst hp
      exact h.defined
    · obtain ⟨stack, source, output, exiting, -, hrun⟩ :=
        Primitive.state_run hp (define .none) name t
      rw [hrun]
      exact h.replaced stack source output t.current exiting
  nextToken t h := by
    rw [nextToken, state_onSource]
    exact h.replaced t.stack _ t.output t.current t.exiting
  print text t h := by
    rw [print, state_onOutput]
    exact h.replaced t.stack t.source _ t.current t.exiting
  flush t h := by
    rw [flush, state_onOutput]
    exact h.replaced t.stack t.source _ t.current t.exiting

theorem runSource (h : Follows s t) (source : Source) :
    Follows s (runSource .none source t).state := by
  have hrun : Follows s (run .none { t with source }).state :=
    (invariant s).run _ (h.replaced t.stack source t.output t.current t.exiting)
  rw [Forth.runSource]
  cases hr : run .none { t with source } with
  | ok ending u | error failure u =>
    rw [hr] at hrun
    exact hrun.replaced u.stack t.source u.output u.current false

theorem processText (h : Follows s t) (path text : String) :
    Follows s (processText .none path text t).state :=
  h.runSource _

theorem proper (h : Follows s t) (hs : s.dictionary.Proper) : t.dictionary.Proper := by
  induction h with
  | refl => exact hs
  | replaced _ _ _ _ _ _ ih => exact ih
  | defined _ ih => exact (binds_define .none ih.onlyComments).proper ih
  | compiled place name body _ ih =>
    exact (binds_defineFromTokens .none ih.onlyComments place name body).proper ih
  | aliased name existing hd _ ih => exact ih.addAlias hd

end Follows

/-- The session can arise from one that knows the words of the language and nothing else. -/
def Attainable (s : Session Empty σ) : Prop :=
  ∃ source hostState,
    Follows { dictionary := Dictionary.empty.definePrimitives, source, hostState } s

theorem Attainable.follows (hs : Attainable s) (h : Follows s t) : Attainable t := by
  obtain ⟨source, hostState, hstart⟩ := hs
  exact ⟨source, hostState, hstart.trans h⟩

theorem Attainable.proper (hs : Attainable s) : s.dictionary.Proper := by
  obtain ⟨source, hostState, hstart⟩ := hs
  exact hstart.proper Dictionary.proper_empty.definePrimitives

theorem Reachable.attainable (hs : Reachable s) : Attainable s := by
  induction hs with
  | start source hostState => exact ⟨source, hostState, .refl⟩
  | @read t source _ ih =>
    exact ih.follows (Follows.refl.replaced t.stack source t.output t.current t.exiting)
  | @written t output _ ih =>
    exact ih.follows (Follows.refl.replaced t.stack t.source output t.current t.exiting)
  | @moved t place _ ih => exact ih.follows ((Follows.invariant t).place t place .refl)
  | @resumed t _ ih =>
    exact ih.follows (Follows.refl.replaced t.stack t.source t.output t.current false)
  | @pushed t v _ ih => exact ih.follows ((Follows.invariant t).push v t .refl)
  | @ran t p name _ ih => exact ih.follows ((Follows.invariant t).primitive p name t .refl)

end Forth
