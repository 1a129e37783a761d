import Forth.Proofs.Machine.Agreement
import Forth.Proofs.Machine.Passing
import Forth.Proofs.Session.View

/-! # The machine seen through a view of places

A machine holds places in its session, in the tokens and failures that wait in
its frames, and in the failure it passes on. Seen through a view that moves on
with the cursor, it takes the same steps. So a run of a source under another name
comes to the same end under that name.
-/

namespace Forth

open Session

variable {σ : Type} {view : Location → Location}

def Frame.seen (view : Location → Location) : Frame → Frame
  | .replay rest => .replay rest
  | .compile truncated name steps => .compile (truncated.seen view) (name.seen view) steps
  | .skip truncated failure => .skip (truncated.seen view) (failure.seen view)

namespace Machine

def seen (view : Location → Location) : Machine σ → Machine σ
  | turn s => turn (s.seen view)
  | invoke b name frames s => invoke b name (frames.map (Frame.seen view)) (s.seen view)
  | answer a frames s =>
    answer (a.mapError (Failure.seen view)) (frames.map (Frame.seen view)) (s.seen view)
  | ended r => ended (r.trimap id (Failure.seen view) (Session.seen view))

section Step

variable (frames : List Frame) (truncated failure : Failure) (name t : Token)
  (steps : List (Step Empty)) (s : Session Empty σ)

theorem answering_seen (r : EStateM.Result Failure (Session Empty σ) Unit) :
    answering (frames.map (Frame.seen view)) (r.trimap id (Failure.seen view) (Session.seen view)) =
      (answering frames r).seen view := by
  cases r <;> rfl

theorem takeToken_seen : takeToken (t.seen view) (s.seen view) = (takeToken t s).seen view := by
  rw [takeToken, takeToken, resolve_seen]
  cases s.dictionary.resolve t <;> rfl

theorem read_seen (hv : Location.Advances view) {found find : Token → Session Empty σ → Machine σ}
    (hfound : ∀ t u, find (t.seen view) (u.seen view) = (found t u).seen view) :
    read (truncated.seen view) (frames.map (Frame.seen view)) (s.seen view) find =
      (read truncated frames s found).seen view := by
  rw [read, read, nextToken_seen hv]
  cases nextToken s with
  | error failure u => rfl
  | ok token u =>
    cases token with
    | none => rfl
    | some t => exact hfound t u

theorem compile_seen :
    compile (truncated.seen view) (name.seen view) steps (frames.map (Frame.seen view))
        (t.seen view) (s.seen view) =
      (compile truncated name steps frames t s).seen view := by
  rw [compile, compile, Token.text_seen]
  split
  · rw [install_seen, answering_seen]
  · rw [resolve_seen]
    cases s.dictionary.resolve t with
    | none => rfl
    | some w =>
      change (if w.immediate then _ else _) = (if w.immediate then _ else _ : Machine σ).seen view
      split <;> rfl

theorem skip_seen :
    skip (truncated.seen view) (failure.seen view) (frames.map (Frame.seen view)) (t.seen view)
        (s.seen view) =
      (skip truncated failure frames t s).seen view := by
  rw [skip, skip, Token.text_seen]
  split
  · rfl
  · rw [resolve_seen]
    cases s.dictionary.resolve t with
    | none => rfl
    | some w =>
      change (if w.immediate then _ else _) = (if w.immediate then _ else _ : Machine σ).seen view
      split <;> rfl

theorem replay_seen :
    replay (frames.map (Frame.seen view)) (s.seen view) steps =
      (replay frames s steps).seen view := by
  cases steps with
  | nil => rfl
  | cons step rest =>
    rw [replay, replay]
    change (if s.exiting then _ else _) = _
    split <;> rfl

theorem resume_seen (hv : Location.Advances view) (frame : Frame) :
    resume (frames.map (Frame.seen view)) (s.seen view) (frame.seen view) =
      (resume frames s frame).seen view := by
  cases frame with
  | replay rest => exact replay_seen frames rest s
  | compile truncated name steps =>
    exact read_seen frames truncated s hv fun t u => compile_seen frames truncated name t steps u
  | skip truncated failure =>
    exact read_seen frames truncated s hv fun t u => skip_seen frames truncated failure t u

theorem fail_seen (frame : Frame) :
    fail (failure.seen view) (frames.map (Frame.seen view)) (s.seen view) (frame.seen view) =
      (fail failure frames s frame).seen view := by
  cases frame with
  | replay => rfl
  | compile | skip =>
    change (if failure.isFatal then _ else _) =
      (if failure.isFatal then _ else _ : Machine σ).seen view
    split <;> rfl

theorem start_seen (hv : Location.Advances view) (word : String) (b : Behavior Empty) :
    start word (frames.map (Frame.seen view)) (s.seen view) b =
      (start word frames s b).seen view := by
  cases b with
  | primitive p =>
    by_cases hp : p = .colon
    · subst hp
      exact read_seen frames s.truncated s hv fun _ _ => rfl
    · rw [start_primitive hp, start_primitive hp, blind_run hv hp, answering_seen]
  | literal v => rfl
  | compiled steps => rfl
  | host k => nomatch k

theorem conclude_seen (a : Except Failure Unit) :
    conclude (a.mapError (Failure.seen view)) (s.seen view) = (conclude a s).seen view := by
  cases a with
  | ok => rfl
  | error failure =>
    change (if failure.isFatal then _ else _) =
      (if failure.isFatal then _ else _ : Machine σ).seen view
    split
    · rfl
    · rw [Failure.cause_seen, blind_print]
      cases print s!"{failure.cause.text}\n" s <;> rfl

theorem takeTurn_seen (hv : Location.Advances view) :
    takeTurn (s.seen view) = (takeTurn s).seen view := by
  rw [takeTurn, takeTurn, blind_flush]
  cases flush s with
  | error failure t => rfl
  | ok _ t =>
    change (if t.exiting then _ else _) = (if t.exiting then _ else _ : Machine σ).seen view
    split
    · rfl
    · rw [nextToken_seen hv]
      cases nextToken t with
      | error failure u => rfl
      | ok token u =>
        cases token with
        | none => rfl
        | some token => exact takeToken_seen token u

end Step

/-- It makes no difference whether a step is taken before the places are seen or after it. -/
theorem step_seen (hv : Location.Advances view) :
    Function.Semiconj (seen view : Machine σ → Machine σ) step step := by
  intro m
  cases m with
  | turn s => exact (takeTurn_seen s hv).symm
  | invoke b name frames s => exact (start_seen frames s hv name b).symm
  | ended r => rfl
  | answer a frames s =>
    cases frames with
    | nil => exact (conclude_seen s a).symm
    | cons frame frames =>
      cases a with
      | ok => exact (resume_seen frames s hv frame).symm
      | error failure => exact (fail_seen frames failure s frame).symm

end Machine

theorem Dictionary.OnlyComments.seen {d : Dictionary (Behavior Empty)} (hd : d.OnlyComments) :
    (d.seen view).OnlyComments := by
  intro name w hw hi
  rw [find?_seen] at hw
  obtain ⟨v, hv, rfl⟩ := Option.map_eq_some_iff.mp hw
  exact hd name v hv hi

/-- A run comes to the same end, whatever is seen of places. -/
theorem run_seen (hv : Location.Advances view) {s : Session Empty σ}
    (hs : s.dictionary.OnlyComments) :
    run .none (s.seen view) =
      (run .none s).trimap id (Failure.seen view) (Session.seen view) := by
  obtain ⟨n, hn⟩ := Machine.reaches_run hs
  obtain ⟨k, hk⟩ := Machine.reaches_run (s := s.seen view) hs.seen
  have hseen := (Machine.step_seen hv).iterate_right n (.turn s)
  rw [hn] at hseen
  exact Machine.ended_unique hk hseen.symm

end Forth
