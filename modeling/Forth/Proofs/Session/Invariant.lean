import Forth.Proofs.Behavior.BuiltFrom
import Forth.Proofs.Primitive.Frame
import Forth.Session.Run

/-! # What a run keeps

A run is made of few kinds of steps: the flush, reading a token, noting its
place, pushing a number, running a primitive, and reporting a failure. What
every such step keeps is kept by a whole run, also if it fails on the way.
-/

namespace Forth

open Session

variable {κ σ α β : Type}

def Keeps (I : Session κ σ → Prop) (m : SessionM κ σ α) : Prop :=
  ∀ s, I s → I (m s).state

namespace Keeps

variable {I : Session κ σ → Prop}

theorem of_ok {m : SessionM κ σ α} {s t : Session κ σ} {a : α} (hm : Keeps I m)
    (h : m s = .ok a t) (hs : I s) : I t := by
  have ht := hm s hs
  rwa [h] at ht

theorem pure (a : α) : Keeps I (pure a : SessionM κ σ α) := fun _ hs => hs

theorem throw (failure : Failure) : Keeps I (throw failure : SessionM κ σ α) := fun _ hs => hs

theorem bind {m : SessionM κ σ α} {f : α → SessionM κ σ β} (hm : Keeps I m)
    (hf : ∀ a, Keeps I (f a)) : Keeps I (m >>= f) := by
  intro s hs
  have ht := hm s hs
  rw [bind_apply]
  cases h : m s with
  | ok a t =>
    rw [h] at ht
    exact hf a t ht
  | error failure t =>
    rw [h] at ht
    exact ht

theorem attempt {m : SessionM κ σ α} (hm : Keeps I m) : Keeps I (attempt m) := by
  intro s hs
  have ht := hm s hs
  obtain ⟨a, t, h, ha⟩ | ⟨failure, t, h, -, ha⟩ | ⟨failure, t, h, -, ha⟩ := attempt_cases m s
  all_goals
    rw [h] at ht
    rw [ha]
    exact ht

theorem replayStep {first rest : SessionM κ σ Unit} (hf : Keeps I first) (hr : Keeps I rest) :
    Keeps I (Behavior.replayStep first rest) := by
  intro s hs
  cases h : s.exiting with
  | true =>
    rw [Behavior.replayStep_of_exiting h]
    exact hs
  | false =>
    rw [Behavior.replayStep_of_not_exiting h]
    exact hf.bind (fun _ => hr) s hs

end Keeps

/-- The property is kept by every kind of step that a run without behaviors from outside takes. -/
structure Invariant (I : Session Empty σ → Prop) : Prop where
  place : ∀ s place, I s → I { s with current := some place }
  push : ∀ v, Keeps I (push v)
  primitive : ∀ (p : Primitive) name, Keeps I (p.run (define .none) name)
  nextToken : Keeps I nextToken
  print : ∀ text, Keeps I (print text)
  flush : Keeps I flush

namespace Invariant

variable {I : Session Empty σ → Prop}

theorem always : Invariant (fun _ : Session Empty σ => True) where
  place _ _ _ := trivial
  push _ _ _ := trivial
  primitive _ _ _ _ := trivial
  nextToken _ _ := trivial
  print _ _ _ := trivial
  flush _ _ := trivial

/-- What concerns the dictionary and the source is kept if definitions and the two ways of reading
keep it. -/
theorem of_reading {P : Dictionary (Behavior Empty) → Source → Prop}
    (hI : ∀ s : Session Empty σ, I s ↔ P s.dictionary s.source) (hdefine : Keeps I (define .none))
    (hnext : ∀ d u, P d u → P d (Source.nextToken u).state)
    (hline : ∀ d u, P d u → P d (Source.restOfLine u).state) : Invariant I where
  place s place hs := (hI _).mpr ((hI s).mp hs)
  push v s hs := (hI _).mpr ((hI s).mp hs)
  primitive p name s hs := by
    by_cases hp : p = .colon
    · subst hp
      exact hdefine s hs
    · obtain ⟨stack, source, output, exiting, hsource, h⟩ :=
        Primitive.state_run hp (define .none) name s
      rw [h, hI]
      rcases hsource with rfl | rfl
      · exact (hI s).mp hs
      · exact hline _ _ ((hI s).mp hs)
  nextToken s hs := by
    rw [Session.nextToken, state_onSource, hI]
    exact hnext _ _ ((hI s).mp hs)
  print text s hs := by
    rw [Session.print, state_onOutput, hI]
    exact (hI s).mp hs
  flush s hs := by
    rw [Session.flush, state_onOutput, hI]
    exact (hI s).mp hs

theorem invoke (hI : Invariant I) (b : Behavior Empty) (name : String) :
    Keeps I (invoke .none b name) :=
  (Behavior.BuiltFrom.of_no_host b).invokeWith_induction (fun p name _ => hI.primitive p name)
    hI.push (.pure ()) (fun _ _ => .replayStep) name

theorem runToken (hI : Invariant I) (t : Token) : Keeps I (runToken .none t) := by
  intro s hs
  rw [Forth.runToken, get_bind_apply]
  cases s.dictionary.resolve t with
  | none => exact hs
  | some w => exact hI.invoke w.behavior w.name _ (hI.place s t.location hs)

theorem evaluate (hI : Invariant I) (t : Token) : Keeps I (evaluate .none t) := by
  refine (hI.runToken t).attempt.bind fun answer => ?_
  cases answer with
  | ok => exact .pure ()
  | error failure => exact hI.print _

theorem runWithin (hI : Invariant I) (bound : Nat) : Keeps I (runWithin .none bound) := by
  induction bound with
  | zero => exact .pure _
  | succ bound ih =>
    refine hI.flush.bind fun _ => ?_
    intro s hs
    rw [get_bind_apply]
    split
    · exact hs
    · refine hI.nextToken.bind (fun token => ?_) s hs
      cases token with
      | none => exact .pure _
      | some t => exact (hI.evaluate t).bind fun _ => ih

theorem run (hI : Invariant I) : Keeps I (run .none) :=
  fun s hs => hI.runWithin s.source.bound s hs

end Invariant

end Forth
