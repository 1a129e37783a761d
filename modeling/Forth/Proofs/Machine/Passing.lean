import Forth.Proofs.Machine.Basic
import Forth.Proofs.Session.Commuting

/-! # Changes that a step of the machine passes on

A change of the session can be made before a part of a step or after it, if it
leaves alone what the part works on. Most parts look at the dictionary, at the
exit flag and at the place of the token, and at nothing else.
-/

namespace Forth

open Session

variable {σ : Type} {f : Session Empty σ → Session Empty σ}

/-- The change leaves alone what a step decides by. -/
structure Session.Inert (f : Session Empty σ → Session Empty σ) : Prop where
  sameDictionary : ∀ s, (f s).dictionary = s.dictionary
  sameExiting : ∀ s, (f s).exiting = s.exiting
  dictionary : ∀ s dictionary, f { s with dictionary } = { f s with dictionary }
  current : ∀ s current, f { s with current } = { f s with current }

namespace Machine

def map (f : Session Empty σ → Session Empty σ) : Machine σ → Machine σ
  | turn s => turn (f s)
  | invoke b name frames s => invoke b name frames (f s)
  | answer a frames s => answer a frames (f s)
  | ended r => ended (r.mapState f)

@[simp] theorem session_map (f : Session Empty σ → Session Empty σ) (m : Machine σ) :
    (m.map f).session = f m.session := by
  cases m with
  | ended r => exact EStateM.Result.state_mapState f r
  | _ => rfl

theorem map_congr {g : Session Empty σ → Session Empty σ} {m : Machine σ}
    (h : f m.session = g m.session) : m.map f = m.map g := by
  cases m with
  | turn s => exact congrArg turn h
  | invoke b name frames s => exact congrArg (invoke b name frames) h
  | answer a frames s => exact congrArg (answer a frames) h
  | ended r =>
    cases r with
    | ok e s => exact congrArg (fun t => ended (.ok e t)) h
    | error failure s => exact congrArg (fun t => ended (.error failure t)) h

def PassesOn (f : Session Empty σ → Session Empty σ) (g : Session Empty σ → Machine σ) : Prop :=
  ∀ s, g (f s) = (g s).map f

section PassesOn

variable {frames : List Frame} {truncated failure : Failure}

theorem answering_mapState (frames : List Frame)
    (r : EStateM.Result Failure (Session Empty σ) Unit) :
    answering frames (r.mapState f) = (answering frames r).map f := by
  cases r <;> rfl

theorem passesOn_execute (hf : Inert f) (t : Token) (w : Word (Behavior Empty))
    (frames : List Frame) : PassesOn f (execute t w frames) :=
  fun s => congrArg (invoke w.behavior w.name frames) (hf.current s (some t.location)).symm

theorem passesOn_takeToken (hf : Inert f) (t : Token) : PassesOn f (takeToken t) := by
  intro s
  simp only [takeToken, hf.sameDictionary]
  split
  · rfl
  · exact passesOn_execute hf t _ [] s

theorem passesOn_compile (hf : Inert f) (truncated : Failure) (name : Token)
    (steps : List (Step Empty)) (frames : List Frame) (t : Token) :
    PassesOn f (compile truncated name steps frames t) := by
  intro s
  simp only [compile, hf.sameDictionary]
  split
  · refine Eq.trans ?_ (answering_mapState frames _)
    rw [install, defineWord, modify_apply, modify_apply, hf.sameDictionary, ← hf.dictionary]
    rfl
  · split
    · rfl
    · split
      · exact passesOn_execute hf t _ _ s
      · rfl

theorem passesOn_skip (hf : Inert f) (truncated failure : Failure) (frames : List Frame)
    (t : Token) : PassesOn f (skip truncated failure frames t) := by
  intro s
  simp only [skip, hf.sameDictionary]
  split
  · rfl
  · split
    · rfl
    · split
      · exact passesOn_execute hf t _ _ s
      · rfl

theorem passesOn_replay (hf : Inert f) (frames : List Frame) (steps : List (Step Empty)) :
    PassesOn f fun s => replay frames s steps := by
  intro s
  cases steps with
  | nil => rfl
  | cons step rest =>
    simp only [replay, hf.sameExiting]
    split <;> rfl

theorem passesOn_fail (f : Session Empty σ → Session Empty σ) (failure : Failure)
    (frames : List Frame) (frame : Frame) : PassesOn f fun s => fail failure frames s frame := by
  intro s
  cases frame with
  | replay => rfl
  | compile | skip =>
    simp only [fail]
    split <;> rfl

theorem passesOn_read {found : Token → Session Empty σ → Machine σ} (hread : Commutes f nextToken)
    (hfound : ∀ t, PassesOn f (found t)) :
    PassesOn f fun s => read truncated frames s found := by
  intro s
  simp only [read, hread s]
  cases nextToken s with
  | error failure t => rfl
  | ok token t =>
    cases token with
    | none => rfl
    | some token => exact hfound token t

theorem passesOn_start {p : Primitive} (hp : p ≠ .colon) {name : String}
    (hrun : Commutes f (p.run (pure ()) name)) (frames : List Frame) :
    PassesOn f fun s => start name frames s (.primitive p) := by
  intro s
  simp only [start_primitive hp, hrun s]
  exact answering_mapState frames _

end PassesOn

end Machine

end Forth
