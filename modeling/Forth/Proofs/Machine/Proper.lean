import Forth.Proofs.Definition.Capture
import Forth.Proofs.Machine.Reading

/-! # Where comments are invoked

A comment is invoked by the token that names it, right after that token was
read, and never by a replay: no word holds it as a step. A definition that waits
fails for good where its input ends.
-/

namespace Forth

open Session

variable {σ : Type}

inductive Frame.Proper : Frame → Prop
  | replay {rest : List (Step Empty)} :
      (∀ step ∈ rest, step.1.CommentFree) → Proper (.replay rest)
  | compile {truncated : Failure} {name : Token} {steps : List (Step Empty)} :
      truncated.cause = .truncatedDefinition → (∀ step ∈ steps, step.1.CommentFree) →
      Proper (.compile truncated name steps)
  | skip {truncated failure : Failure} :
      truncated.cause = .truncatedDefinition → Proper (.skip truncated failure)

namespace Machine

/-- What waits holds no comment. -/
inductive Proper : Machine σ → Prop
  | turn {s : Session Empty σ} : s.dictionary.Proper → Proper (turn s)
  | invoke {b : Behavior Empty} {frames : List Frame} {s : Session Empty σ} (name : String) :
      s.dictionary.Proper → (∀ frame ∈ frames, frame.Proper) →
      b = .primitive .comment ∨ b.CommentFree → Proper (invoke b name frames s)
  | answer {frames : List Frame} {s : Session Empty σ} (a : Except Failure Unit) :
      s.dictionary.Proper → (∀ frame ∈ frames, frame.Proper) → Proper (answer a frames s)
  | ended {r : EStateM.Result Failure (Session Empty σ) Ending} :
      r.state.dictionary.Proper → Proper (ended r)

theorem Proper.dictionary {m : Machine σ} (h : Proper m) : m.session.dictionary.Proper := by
  cases h with
  | turn | invoke | answer | ended => assumption

section Step

variable {s : Session Empty σ} {frame : Frame} {frames : List Frame} {truncated failure : Failure}
  {t : Token} {steps : List (Step Empty)}

theorem proper_answering {r : EStateM.Result Failure (Session Empty σ) Unit}
    (hd : r.state.dictionary.Proper) (hframes : ∀ frame ∈ frames, frame.Proper) :
    Proper (answering frames r) :=
  .answer _ hd hframes

theorem forall_proper_cons (hframe : frame.Proper) (hframes : ∀ frame ∈ frames, frame.Proper) :
    ∀ other ∈ frame :: frames, other.Proper := by
  intro other hother
  rcases List.mem_cons.mp hother with rfl | hother
  · exact hframe
  · exact hframes other hother

theorem proper_execute (hd : s.dictionary.Proper) (hframes : ∀ frame ∈ frames, frame.Proper)
    {w : Word (Behavior Empty)} (hw : s.dictionary.resolve t = some w) :
    Proper (execute t w frames s) := by
  refine .invoke _ hd hframes ?_
  cases hd.resolve hw with
  | comment _ _ hb => exact .inl hb
  | normal _ hb => exact .inr hb

theorem proper_read {found : Token → Session Empty σ → Machine σ} (hd : s.dictionary.Proper)
    (hframes : ∀ frame ∈ frames, frame.Proper)
    (hfound : ∀ token t, t.dictionary.Proper → Proper (found token t)) :
    Proper (read truncated frames s found) := by
  have hdictionary := keeps_nextToken (σ := σ) s.dictionary s rfl
  rw [read]
  cases h : nextToken s with
  | error failure t =>
    rw [h] at hdictionary
    exact .answer _ (hdictionary ▸ hd) hframes
  | ok token t =>
    rw [h] at hdictionary
    have ht : t.dictionary.Proper := hdictionary ▸ hd
    cases token with
    | none => exact .answer _ ht hframes
    | some token => exact hfound token t ht

theorem proper_compile (name : Token) (hd : s.dictionary.Proper)
    (hframes : ∀ frame ∈ frames, frame.Proper) (ht : truncated.cause = .truncatedDefinition)
    (hsteps : ∀ step ∈ steps, step.1.CommentFree) (t : Token) :
    Proper (compile truncated name steps frames t s) := by
  rw [compile]
  split
  · exact proper_answering (hd.define (.normal rfl (.compiled hsteps))) hframes
  · split
    · exact .answer _ hd (forall_proper_cons (.compile ht hsteps) hframes)
    · rename_i w hw
      split
      · exact proper_execute hd (forall_proper_cons (.compile ht hsteps) hframes) hw
      · refine .answer _ hd (forall_proper_cons (.compile ht fun step hstep => ?_) hframes)
        rcases List.mem_append.mp hstep with hold | hnew
        · exact hsteps step hold
        · rw [List.mem_singleton.mp hnew]
          exact hd.commentFree ⟨t, w, hw, by simpa using ‹¬w.immediate = true›, rfl⟩

theorem proper_skip (hd : s.dictionary.Proper) (hframes : ∀ frame ∈ frames, frame.Proper)
    (ht : truncated.cause = .truncatedDefinition) (t : Token) :
    Proper (skip truncated failure frames t s) := by
  rw [skip]
  split
  · exact .answer _ hd hframes
  · split
    · exact .answer _ hd (forall_proper_cons (.skip ht) hframes)
    · split
      · exact proper_execute hd (forall_proper_cons (.skip ht) hframes) ‹_›
      · exact .answer _ hd (forall_proper_cons (.skip ht) hframes)

theorem proper_takeToken (hd : s.dictionary.Proper) (t : Token) : Proper (takeToken t s) := by
  have hnone : ∀ frame ∈ ([] : List Frame), frame.Proper := List.forall_mem_nil _
  rw [takeToken]
  split
  · exact .answer _ hd hnone
  · exact proper_execute hd hnone ‹_›

theorem proper_takeTurn (hd : s.dictionary.Proper) : Proper (takeTurn s) := by
  have hflushed : (flush s).state.dictionary = s.dictionary := by rw [flush, state_onOutput]
  cases hf : flush s with
  | error failure v =>
    rw [hf] at hflushed
    rw [takeTurn, hf]
    exact .ended (hflushed ▸ hd)
  | ok _ v =>
    rw [hf] at hflushed
    have hv : v.dictionary.Proper := hflushed ▸ hd
    have hread := keeps_nextToken (σ := σ) v.dictionary v rfl
    simp only [takeTurn, hf]
    split
    · exact .ended hv
    · cases hn : nextToken v with
      | error failure x =>
        rw [hn] at hread
        exact .ended (hread ▸ hv)
      | ok token x =>
        rw [hn] at hread
        have hx : x.dictionary.Proper := hread ▸ hv
        cases token with
        | none => exact .ended hx
        | some t => exact proper_takeToken hx t

theorem proper_conclude (hd : s.dictionary.Proper) (a : Except Failure Unit) :
    Proper (conclude a s) := by
  cases a with
  | ok => exact .turn hd
  | error failure =>
    rw [conclude]
    split
    · exact .ended hd
    · have hprinted : (print s!"{failure.cause.text}\n" s).state.dictionary = s.dictionary := by
        rw [print, state_onOutput]
      cases hp : print s!"{failure.cause.text}\n" s with
      | ok _ v =>
        rw [hp] at hprinted
        exact .turn (hprinted ▸ hd)
      | error failed v =>
        rw [hp] at hprinted
        exact .ended (hprinted ▸ hd)

theorem proper_start {b : Behavior Empty} (name : String) (hd : s.dictionary.Proper)
    (hframes : ∀ frame ∈ frames, frame.Proper)
    (hb : b = .primitive .comment ∨ b.CommentFree) : Proper (start name frames s b) := by
  fun_cases start name frames s b with
  | case1 =>
    refine proper_read hd hframes fun token t ht => ?_
    exact .answer _ ht (forall_proper_cons (.compile rfl (List.forall_mem_nil _)) hframes)
  | case2 p hp =>
    obtain ⟨stack, source, output, exiting, -, hrun⟩ :=
      Primitive.state_run (fun h => hp (h ▸ rfl)) (pure ()) name s
    exact proper_answering (hrun ▸ hd) hframes
  | case3 v => exact .answer _ hd hframes
  | case4 steps =>
    have hsteps : ∀ step ∈ steps, step.1.CommentFree := by
      rcases hb with hb | hb
      · cases hb
      · cases hb with
        | compiled h => exact h
    exact .answer _ hd (forall_proper_cons (.replay hsteps) hframes)

theorem proper_resume (hd : s.dictionary.Proper) (hframes : ∀ frame ∈ frames, frame.Proper)
    (hframe : frame.Proper) : Proper (resume frames s frame) := by
  cases hframe with
  | @replay rest hrest =>
    cases rest with
    | nil => exact .answer _ hd hframes
    | cons step rest =>
      have hlater : ∀ other ∈ rest, other.1.CommentFree := fun other hother =>
        hrest other (List.mem_cons_of_mem _ hother)
      rw [resume, replay]
      split
      · exact .answer _ hd hframes
      · exact .invoke _ hd (forall_proper_cons (.replay hlater) hframes)
          (.inr (hrest step List.mem_cons_self))
  | compile ht hsteps =>
    exact proper_read hd hframes fun token _ hu => proper_compile _ hu hframes ht hsteps token
  | skip ht => exact proper_read hd hframes fun token _ hu => proper_skip hu hframes ht token

theorem proper_fail (failure : Failure) (hd : s.dictionary.Proper)
    (hframes : ∀ frame ∈ frames, frame.Proper) (hframe : frame.Proper) :
    Proper (fail failure frames s frame) := by
  cases hframe with
  | replay => exact .answer _ hd hframes
  | compile ht | skip ht =>
    rw [fail]
    split
    · exact .answer _ hd hframes
    · exact .answer _ hd (forall_proper_cons (.skip ht) hframes)

end Step

theorem Proper.step {m : Machine σ} (h : Proper m) : Proper (step m) := by
  cases h with
  | turn hd => exact proper_takeTurn hd
  | invoke name hd hframes hb => exact proper_start name hd hframes hb
  | ended hd => exact .ended hd
  | @answer frames s a hd hframes =>
    cases frames with
    | nil => exact proper_conclude hd a
    | cons frame frames =>
      have hframe := hframes frame List.mem_cons_self
      have hrest : ∀ other ∈ frames, other.Proper := fun other hother =>
        hframes other (List.mem_cons_of_mem _ hother)
      cases a with
      | ok => exact proper_resume hd hrest hframe
      | error failure => exact proper_fail failure hd hrest hframe

theorem Proper.iterate {m : Machine σ} (h : Proper m) (n : Nat) : Proper (Machine.step^[n] m) := by
  induction n with
  | zero => exact h
  | succ n ih =>
    rw [Function.iterate_succ_apply']
    exact ih.step

end Machine

end Forth
