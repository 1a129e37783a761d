import Forth.Proofs.Machine.Definition

/-! # What waits while a word runs

Below the behavior that is invoked there are replays. A definition waits only on
top of them and only for comments, since nothing else is invoked in its text. So
`bye` returns to replays, which go on with none of their steps.
-/

namespace Forth

open Session

variable {σ : Type}

namespace Frame

def IsReplay (frame : Frame) : Prop := ∃ rest, frame = .replay rest

/-- The frame goes on to read a definition, and fails for good where the input ends. -/
inductive Reads : Frame → Prop
  | compile {truncated : Failure} {name : Token} {steps : List (Step Empty)} :
      truncated.isFatal = true → Reads (.compile truncated name steps)
  | skip {truncated failure : Failure} : truncated.isFatal = true → Reads (.skip truncated failure)

end Frame

namespace Machine

/-- Nothing but replays wait, and on top of them at most one definition. -/
inductive Nested : Machine σ → Prop
  | turn (s : Session Empty σ) : Nested (turn s)
  | ended (r : EStateM.Result Failure (Session Empty σ) Ending) : Nested (ended r)
  | invoke {frames : List Frame} (b : Behavior Empty) (name : String) (s : Session Empty σ) :
      (∀ frame ∈ frames, frame.IsReplay) → Nested (invoke b name frames s)
  | comment {frame : Frame} {frames : List Frame} (name : String) (s : Session Empty σ) :
      frame.Reads → (∀ frame ∈ frames, frame.IsReplay) →
      Nested (invoke (.primitive .comment) name (frame :: frames) s)
  | answer {frames : List Frame} (a : Except Failure Unit) (s : Session Empty σ) :
      (∀ frame ∈ frames, frame.IsReplay) → Nested (answer a frames s)
  | reading {frame : Frame} {frames : List Frame} (a : Except Failure Unit) (s : Session Empty σ) :
      frame.Reads → (∀ frame ∈ frames, frame.IsReplay) → Nested (answer a (frame :: frames) s)

section Nested

variable {s : Session Empty σ} {frame : Frame} {frames : List Frame} {truncated failure : Failure}

theorem nested_read {found : Token → Session Empty σ → Machine σ}
    (hframes : ∀ frame ∈ frames, frame.IsReplay)
    (hfound : ∀ token t, t.dictionary = s.dictionary → Nested (found token t)) :
    Nested (read truncated frames s found) := by
  rw [read]
  cases h : nextToken s with
  | error failure t => exact .answer _ t hframes
  | ok token t =>
    cases token with
    | none => exact .answer _ t hframes
    | some token =>
      obtain ⟨u, -, rfl⟩ := exists_of_onSource_ok h
      exact hfound token _ rfl

/-- A definition that meets an immediate word invokes the comment. -/
theorem nested_execute {t : Token} {w : Word (Behavior Empty)} (hd : s.dictionary.Standard)
    (hframe : frame.Reads) (hframes : ∀ frame ∈ frames, frame.IsReplay)
    (hw : s.dictionary.resolve t = some w) (himm : w.immediate = true) :
    Nested (execute t w (frame :: frames) s) := by
  rw [execute, hd.behavior_of_immediate hw himm]
  exact .comment _ _ hframe hframes

theorem nested_compile (hd : s.dictionary.Standard) (ht : truncated.isFatal = true)
    (hframes : ∀ frame ∈ frames, frame.IsReplay) (name : Token) (steps : List (Step Empty))
    (t : Token) : Nested (compile truncated name steps frames t s) := by
  rw [compile]
  split
  · exact .answer _ _ hframes
  · split
    · exact .reading _ _ (.compile ht) hframes
    · split
      · exact nested_execute hd (.compile ht) hframes ‹_› ‹_›
      · exact .reading _ _ (.compile ht) hframes

theorem nested_skip (hd : s.dictionary.Standard) (ht : truncated.isFatal = true)
    (hframes : ∀ frame ∈ frames, frame.IsReplay) (t : Token) :
    Nested (skip truncated failure frames t s) := by
  rw [skip]
  split
  · exact .answer _ _ hframes
  · split
    · exact .reading _ _ (.skip ht) hframes
    · split
      · exact nested_execute hd (.skip ht) hframes ‹_› ‹_›
      · exact .reading _ _ (.skip ht) hframes

theorem nested_takeTurn (s : Session Empty σ) : Nested (takeTurn s) := by
  rw [takeTurn]
  cases flush s with
  | error failure t => exact .ended _
  | ok _ t =>
    simp only
    split
    · exact .ended _
    · cases nextToken t with
      | error failure u => exact .ended _
      | ok token u =>
        cases token with
        | none => exact .ended _
        | some token =>
          simp only [takeToken]
          split
          · exact .answer _ _ (List.forall_mem_nil _)
          · exact .invoke _ _ _ (List.forall_mem_nil _)

theorem nested_conclude (a : Except Failure Unit) (s : Session Empty σ) :
    Nested (conclude a s) := by
  cases a with
  | ok => exact .turn s
  | error failure =>
    rw [conclude]
    split
    · exact .ended _
    · cases print s!"{failure.cause.text}\n" s with
      | ok _ t => exact .turn t
      | error failed t => exact .ended _

theorem nested_start (hframes : ∀ frame ∈ frames, frame.IsReplay) (name : String)
    (s : Session Empty σ) (b : Behavior Empty) : Nested (start name frames s b) := by
  fun_cases start name frames s b with
  | case1 => exact nested_read hframes fun _ t _ => .reading _ t (.compile rfl) hframes
  | case2 | case3 => exact .answer _ _ hframes
  | case4 steps => exact .answer _ s (List.forall_mem_cons.mpr ⟨⟨steps, rfl⟩, hframes⟩)

theorem nested_replay (hframes : ∀ frame ∈ frames, frame.IsReplay) (s : Session Empty σ)
    (steps : List (Step Empty)) : Nested (replay frames s steps) := by
  cases steps with
  | nil => exact .answer _ s hframes
  | cons step rest =>
    rw [replay]
    split
    · exact .answer _ s hframes
    · exact .invoke _ _ s (List.forall_mem_cons.mpr ⟨⟨rest, rfl⟩, hframes⟩)

/-- A definition reads on, or a failure ends it. -/
theorem nested_reading (hd : s.dictionary.Standard) (hframe : frame.Reads)
    (hframes : ∀ frame ∈ frames, frame.IsReplay) (a : Except Failure Unit) :
    Nested (step (answer a (frame :: frames) s)) := by
  cases a with
  | ok =>
    cases hframe with
    | compile ht =>
      exact nested_read hframes fun token t h => nested_compile (h ▸ hd) ht hframes _ _ token
    | skip ht => exact nested_read hframes fun token t h => nested_skip (h ▸ hd) ht hframes token
  | error failure =>
    have hfail : step (answer (.error failure) (frame :: frames) s) =
        fail failure frames s frame := rfl
    rw [hfail]
    cases hframe with
    | compile ht | skip ht =>
      rw [fail]
      split
      · exact .answer _ s hframes
      · exact .reading _ s (.skip ht) hframes

theorem nested_answer (hframes : ∀ frame ∈ frames, frame.IsReplay) (a : Except Failure Unit)
    (s : Session Empty σ) : Nested (step (answer a frames s)) := by
  cases frames with
  | nil => exact nested_conclude a s
  | cons frame frames =>
    obtain ⟨⟨rest, rfl⟩, hbelow⟩ := List.forall_mem_cons.mp hframes
    cases a with
    | ok => exact nested_replay hbelow s rest
    | error failure => exact .answer _ s hbelow

theorem nested_step {m : Machine σ} (hd : m.session.dictionary.Standard) (h : Nested m) :
    Nested (step m) := by
  cases h with
  | turn s => exact nested_takeTurn s
  | ended r => exact .ended r
  | invoke b name s hframes => exact nested_start hframes name s b
  | comment name s hframe hframes => exact .reading _ _ hframe hframes
  | answer a s hframes => exact nested_answer hframes a s
  | reading a s hframe hframes => exact nested_reading hd hframe hframes a

theorem nested_iterate {m : Machine σ} (hd : m.session.dictionary.Standard) (h : Nested m)
    (n : Nat) : Nested (step^[n] m) := by
  induction n with
  | zero => exact h
  | succ n ih =>
    rw [Function.iterate_succ_apply']
    exact nested_step ((onward_iterate n m).standard hd) ih

/-- What waits for the answer of `bye` are replays. -/
theorem Nested.isReplay_of_bye {name : String}
    (h : Nested (Machine.invoke (.primitive .bye) name frames s)) :
    ∀ frame ∈ frames, frame.IsReplay := by
  cases h with
  | invoke _ _ _ hframes => exact hframes

end Nested

section Exit

variable {s : Session Empty σ} {frames : List Frame}

theorem step_bye (name : String) (frames : List Frame) (s : Session Empty σ) :
    step (invoke (.primitive .bye) name frames s) =
      answer (.ok ()) frames { s with exiting := true } := rfl

theorem replay_of_exiting (hexit : s.exiting = true) (frames : List Frame)
    (rest : List (Step Empty)) : replay frames s rest = answer (.ok ()) frames s := by
  cases rest with
  | nil => rfl
  | cons step rest => exact if_pos hexit

/-- Once the end is asked for, each replay ends without another step. -/
theorem iterate_of_exiting (hexit : s.exiting = true)
    (hframes : ∀ frame ∈ frames, frame.IsReplay) {n : Nat} (hn : n ≤ frames.length) :
    step^[n] (answer (.ok ()) frames s) = answer (.ok ()) (frames.drop n) s := by
  induction n generalizing frames with
  | zero => rfl
  | succ n ih =>
    cases frames with
    | nil => cases hn
    | cons frame frames =>
      obtain ⟨⟨rest, rfl⟩, hbelow⟩ := List.forall_mem_cons.mp hframes
      have hstep : step (answer (.ok ()) (.replay rest :: frames) s) = answer (.ok ()) frames s :=
        replay_of_exiting hexit frames rest
      have hle : n ≤ frames.length := Nat.le_of_lt_succ hn
      rw [Function.iterate_succ_apply, hstep, ih hbelow hle, List.drop_succ_cons]

theorem takeTurn_eq_of_exiting (hexit : s.exiting = true) :
    takeTurn s = ended ((do flush; return .terminated : SessionM Empty σ Ending) s) := by
  rw [takeTurn, bind_apply]
  cases hf : flush s with
  | error failure t => rfl
  | ok _ t =>
    obtain ⟨o, -, rfl⟩ := exists_of_onOutput_ok hf
    exact if_pos hexit

/-- What follows a `bye` whose answer goes to the frames. -/
structure Unwinds (frames : List Frame) (s : Session Empty σ) (m : Machine σ) : Prop where
  /-- Only replays wait. -/
  waiting : ∀ frame ∈ frames, frame.IsReplay
  /-- Each of them ends at once, so that no step of it is invoked. -/
  returns : ∀ k ≤ frames.length, step^[k + 1] m =
    answer (.ok ()) (frames.drop k) { s with exiting := true }
  /-- The run flushes its output and ends. Nothing is read before. -/
  turn : step^[frames.length + 2] m = turn { s with exiting := true }
  ended : ∀ n, frames.length + 3 ≤ n → step^[n] m =
    ended ((do flush; return .terminated : SessionM Empty σ Ending) { s with exiting := true })

theorem unwinds_bye (hframes : ∀ frame ∈ frames, frame.IsReplay) (name : String)
    (s : Session Empty σ) : Unwinds frames s (invoke (.primitive .bye) name frames s) := by
  have hreturns (k : Nat) (hk : k ≤ frames.length) :
      step^[k + 1] (invoke (.primitive .bye) name frames s) =
        answer (.ok ()) (frames.drop k) { s with exiting := true } := by
    rw [Function.iterate_succ_apply, step_bye]
    exact iterate_of_exiting rfl hframes hk
  have hturn : step^[frames.length + 2] (invoke (.primitive .bye) name frames s) =
      turn { s with exiting := true } := by
    rw [Function.iterate_succ_apply', hreturns _ le_rfl, List.drop_length]
    rfl
  refine ⟨hframes, hreturns, hturn, fun n hn => ?_⟩
  obtain ⟨k, rfl⟩ := Nat.exists_eq_add_of_le' hn
  rw [Function.iterate_add_apply, Function.iterate_succ_apply', hturn]
  change step^[k] (takeTurn { s with exiting := true }) = _
  rw [takeTurn_eq_of_exiting rfl, iterate_ended]

end Exit

theorem exiting_steps : Session.Steps fun s t : Session Empty σ => t.exiting = s.exiting where
  refl _ := rfl
  trans h k := k.trans h
  nextToken s := by rw [Session.nextToken, state_onSource]
  flush s := by rw [Session.flush, state_onOutput]
  print text s := by rw [Session.print, state_onOutput]
  place _ _ := rfl
  push _ _ := rfl
  install _ _ _ _ := rfl

/-- Only a `bye` asks for the end. -/
theorem exists_bye_of_exiting {m : Machine σ} (hm : m.session.exiting = false) {n : Nat}
    (hn : (step^[n] m).session.exiting = true) :
    ∃ i name frames s, i < n ∧ step^[i] m = invoke (.primitive .bye) name frames s := by
  by_contra hnone
  have hclear (i : Nat) (hi : i ≤ n) : (step^[i] m).session.exiting = false := by
    induction i with
    | zero => exact hm
    | succ i ih =>
      rw [Function.iterate_succ_apply']
      refine (session_step exiting_steps _ fun p name frames s hinvoke hcolon => ?_).trans
        (ih (Nat.le_of_succ_le hi))
      refine Primitive.exiting_run hcolon (fun hbye => ?_) (pure ()) name s
      subst hbye
      exact hnone ⟨i, name, frames, s, hi, hinvoke⟩
  rw [hclear n le_rfl] at hn
  cases hn

end Machine

end Forth
