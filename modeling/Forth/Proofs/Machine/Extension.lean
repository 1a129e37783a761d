import Forth.Proofs.Machine.Exit
import Forth.Proofs.Machine.Passing
import Forth.Proofs.Machine.Termination
import Forth.Proofs.Run.Containment
import Forth.Proofs.Source.Extension

/-! # Two runs of which one can read on

A session runs a text, and another one that goes on on the next line. The two
machines are in the same state but for the source, step by step, until the first
one has met the end of its text. From there the first one comes to the end of
its input or to a truncated definition.
-/

namespace Forth

open Session

variable {σ : Type}

theorem Session.apart_entering (source : Source) :
    Session.Apart (·.entering source : Session Empty σ → Session Empty σ) where
  stack _ _ := rfl
  output _ _ := rfl
  exiting _ _ := rfl
  sameOutput _ := rfl
  sameExiting _ := rfl

theorem flush_entering (s : Session Empty σ) (source : Source) :
    flush (s.entering source) = (flush s).mapState (·.entering source) :=
  Commutes.onOutput (f := (·.entering source)) (fun _ _ => rfl) (fun _ => rfl) Output.flush s

theorem print_entering (text : String) (s : Session Empty σ) (source : Source) :
    print text (s.entering source) = (print text s).mapState (·.entering source) :=
  Commutes.onOutput (f := (·.entering source)) (fun _ _ => rfl) (fun _ => rfl) (Output.print text) s

/-- A primitive that reads nothing passes its source on. -/
theorem Primitive.run_entering {p : Primitive} (hcolon : p ≠ .colon) (hcomment : p ≠ .comment)
    (define : SessionM Empty σ Unit) (name : String) (s : Session Empty σ) (source : Source) :
    p.run define name (s.entering source) =
      (p.run define name s).mapState (·.entering source) := by
  by_cases hd : p = .dotDictionary
  · subst hd
    exact Commutes.onOutput (f := (·.entering source)) (fun _ _ => rfl) (fun _ => rfl)
      (Output.printOrFail s.dictionary.listing) s
  · have hp : p.WorksOnStack := ⟨hd, hcomment, hcolon⟩
    rw [run_eq_perform hp, run_eq_perform hp]
    exact Commutes.perform (apart_entering source) _ s

namespace Machine

def withSource (source : Source) : Machine σ → Machine σ
  | turn s => turn (s.entering source)
  | invoke b name frames s => invoke b name frames (s.entering source)
  | answer a frames s => answer a frames (s.entering source)
  | ended r => ended (r.mapState (·.entering source))

theorem withSource_eq_map (source : Source) (m : Machine σ) :
    m.withSource source = m.map (·.entering source) := by
  cases m <;> rfl

@[simp] theorem session_withSource (source : Source) (m : Machine σ) :
    (m.withSource source).session = m.session.entering source := by
  rw [withSource_eq_map, session_map]

/-- The machine is in the same state as the first one, and its source is ahead. -/
def Ahead (more : List Char) (m k : Machine σ) : Prop :=
  ∃ source, m.session.source.Ahead more source ∧ k = m.withSource source

/-- The machine that the function gives is the same whatever the source, and has that source. -/
def SourceFree (f : Session Empty σ → Machine σ) : Prop :=
  ∀ s source, f (s.entering source) = (f s).withSource source

section SourceFree

variable {more : List Char} {source : Source} {s : Session Empty σ} {frames : List Frame}
  {f : Session Empty σ → Machine σ}

theorem SourceFree.source_eq (hf : SourceFree f) (s : Session Empty σ) :
    (f s).session.source = s.source := by
  have h : (f s).session = ((f s).withSource s.source).session :=
    congrArg session (hf s s.source)
  rw [h, session_withSource]
  rfl

theorem SourceFree.ahead (hf : SourceFree f) (h : s.source.Ahead more source) :
    Ahead more (f s) (f (s.entering source)) :=
  ⟨source, (hf.source_eq s).symm ▸ h, hf s source⟩

theorem inert_entering (source : Source) :
    Session.Inert (·.entering source : Session Empty σ → Session Empty σ) :=
  ⟨fun _ => rfl, fun _ => rfl, fun _ _ => rfl, fun _ _ => rfl⟩

theorem sourceFree_of_passesOn (hf : ∀ source, PassesOn (·.entering source) f) : SourceFree f :=
  fun s source => (hf source s).trans (withSource_eq_map source (f s)).symm

theorem sourceFree_takeToken (t : Token) : SourceFree (σ := σ) (takeToken t) :=
  sourceFree_of_passesOn fun source => passesOn_takeToken (inert_entering source) t

theorem sourceFree_compile (truncated : Failure) (name : Token) (steps : List (Step Empty))
    (frames : List Frame) (t : Token) :
    SourceFree (σ := σ) (compile truncated name steps frames t) :=
  sourceFree_of_passesOn fun source =>
    passesOn_compile (inert_entering source) truncated name steps frames t

theorem sourceFree_skip (truncated failure : Failure) (frames : List Frame) (t : Token) :
    SourceFree (σ := σ) (skip truncated failure frames t) :=
  sourceFree_of_passesOn fun source =>
    passesOn_skip (inert_entering source) truncated failure frames t

theorem sourceFree_conclude (a : Except Failure Unit) : SourceFree (σ := σ) (conclude a) := by
  intro s source
  cases a with
  | ok => rfl
  | error failure =>
    rw [conclude, conclude]
    split
    · rfl
    · rw [print_entering]
      cases print s!"{failure.cause.text}\n" s <;> rfl

theorem sourceFree_replay (frames : List Frame) (steps : List (Step Empty)) :
    SourceFree fun s : Session Empty σ => replay frames s steps :=
  sourceFree_of_passesOn fun source => passesOn_replay (inert_entering source) frames steps

theorem sourceFree_fail (failure : Failure) (frames : List Frame) (frame : Frame) :
    SourceFree fun s : Session Empty σ => fail failure frames s frame :=
  sourceFree_of_passesOn fun _ => passesOn_fail _ failure frames frame

end SourceFree

/-- The run does not end by `bye` any more. -/
inductive Dry : Machine σ → Prop
  | failing {failure : Failure} (frames : List Frame) (s : Session Empty σ) :
      failure.isFatal = true → Dry (answer (.error failure) frames s)
  | ended {r : EStateM.Result Failure (Session Empty σ) Ending} :
      r.answer ≠ .ok .terminated → Dry (ended r)

theorem Dry.step {m : Machine σ} (h : Dry m) : Dry (step m) := by
  cases h with
  | ended h => exact .ended h
  | @failing failure frames s h =>
    cases frames with
    | nil =>
      have hended : Machine.step (answer (.error failure) [] s) = .ended (.error failure s) :=
        if_pos h
      rw [hended]
      exact .ended nofun
    | cons frame frames =>
      have hanswer : Machine.step (answer (.error failure) (frame :: frames) s) =
          answer (.error failure) frames s :=
        fail_of_fatal frame h
      rw [hanswer]
      exact .failing frames s h

theorem Dry.iterate {m : Machine σ} (h : Dry m) (n : Nat) : Dry (Machine.step^[n] m) := by
  induction n with
  | zero => exact h
  | succ n ih =>
    rw [Function.iterate_succ_apply']
    exact ih.step

section Ahead

variable {more : List Char} {source : Source} {s : Session Empty σ} {frames : List Frame}
  {truncated : Failure}

theorem ahead_read {found : Token → Session Empty σ → Machine σ}
    (htruncated : truncated.isFatal = true) (hfound : ∀ token, SourceFree (found token))
    (h : s.source.Ahead more source) :
    Ahead more (read truncated frames s found) (read truncated frames (s.entering source) found) ∨
      Dry (read truncated frames s found) := by
  obtain ⟨u, hs⟩ | ⟨token, u, v, hs, ht, huv⟩ := h.nextToken
  · rw [read_of_none hs]
    exact .inr (.failing _ _ htruncated)
  · rw [read_of_token hs, read_of_token (s := s.entering source) ht]
    exact .inl ((hfound token).ahead (s := { s with source := u }) huv)

theorem ahead_takeTurn (h : s.source.Ahead more source) :
    Ahead more (takeTurn s) (takeTurn (s.entering source)) ∨ Dry (takeTurn s) := by
  have hsource : (flush s).state.source = s.source := by rw [flush, state_onOutput]
  have hpasses := flush_entering s source
  cases hf : flush s with
  | error failure t =>
    rw [hf] at hsource hpasses
    rw [takeTurn_of_flush_error hf, takeTurn_of_flush_error hpasses]
    exact .inl ⟨source, hsource ▸ h, rfl⟩
  | ok _ t =>
    rw [hf] at hsource hpasses
    have ht : t.source.Ahead more source := hsource ▸ h
    cases hexit : t.exiting with
    | true =>
      rw [takeTurn_of_exiting hf hexit, takeTurn_of_exiting hpasses hexit]
      exact .inl ⟨source, ht, rfl⟩
    | false =>
      obtain ⟨u, hu⟩ | ⟨token, u, v, hu, hv, huv⟩ := ht.nextToken
      · rw [takeTurn_of_end hf hexit (onSource_of_ok hu)]
        exact .inr (.ended (by rintro ⟨⟩))
      · rw [takeTurn_of_token hf hexit (onSource_of_ok hu),
          takeTurn_of_token hpasses hexit (onSource_of_ok hv)]
        exact .inl ((sourceFree_takeToken token).ahead (s := { t with source := u }) huv)

theorem ahead_comment (name : String) (frames : List Frame) (h : s.source.Ahead more source) :
    Ahead more (start name frames s (.primitive .comment))
      (start name frames (s.entering source) (.primitive .comment)) := by
  obtain ⟨line, other, u, v, hu, hv, huv⟩ := h.restOfLine
  have hs : start name frames s (.primitive .comment) =
      answer (.ok ()) frames { s with source := u } :=
    congrArg (answering frames) (bind_of_ok (onSource_of_ok hu))
  have ht : start name frames (s.entering source) (.primitive .comment) =
      answer (.ok ()) frames { s with source := v } :=
    congrArg (answering frames) (bind_of_ok (onSource_of_ok hv))
  rw [hs, ht]
  exact ⟨v, huv, rfl⟩

theorem ahead_start (name : String) (frames : List Frame) (b : Behavior Empty)
    (h : s.source.Ahead more source) :
    Ahead more (start name frames s b) (start name frames (s.entering source) b) ∨
      Dry (start name frames s b) := by
  cases b with
  | primitive p =>
    by_cases hcolon : p = .colon
    · subst hcolon
      refine ahead_read rfl (fun token => ?_) h
      intro t source
      rfl
    · by_cases hcomment : p = .comment
      · subst hcomment
        exact .inl (ahead_comment name frames h)
      · have hrun : SourceFree fun t : Session Empty σ => start name frames t (.primitive p) :=
          sourceFree_of_passesOn fun other =>
            passesOn_start hcolon (fun t => p.run_entering hcolon hcomment (pure ()) name t other)
              frames
        exact .inl (hrun.ahead h)
  | literal v => exact .inl ⟨source, h, rfl⟩
  | compiled steps => exact .inl ⟨source, h, rfl⟩
  | host k => nomatch k

theorem ahead_resume (frames : List Frame) {frame : Frame} (hframe : frame.IsReplay ∨ frame.Reads)
    (h : s.source.Ahead more source) :
    Ahead more (resume frames s frame) (resume frames (s.entering source) frame) ∨
      Dry (resume frames s frame) := by
  rcases hframe with ⟨rest, rfl⟩ | hreads
  · exact .inl ((sourceFree_replay frames rest).ahead h)
  · cases hreads with
    | compile ht => exact ahead_read ht (sourceFree_compile _ _ _ frames) h
    | skip ht => exact ahead_read ht (sourceFree_skip _ _ frames) h

end Ahead

theorem Nested.isReplay_or_reads {a : Except Failure Unit} {frame : Frame} {frames : List Frame}
    {s : Session Empty σ} (h : Nested (.answer a (frame :: frames) s)) :
    frame.IsReplay ∨ frame.Reads := by
  cases h with
  | answer _ _ hframes => exact .inl (hframes frame List.mem_cons_self)
  | reading _ _ hframe => exact .inr hframe

theorem Ahead.step {more : List Char} {m k : Machine σ} (h : Ahead more m k) (hm : Nested m) :
    Ahead more (step m) (step k) ∨ Dry (Machine.step m) := by
  obtain ⟨source, h, rfl⟩ := h
  cases m with
  | turn s => exact ahead_takeTurn h
  | invoke b name frames s => exact ahead_start name frames b h
  | ended r => exact .inl ⟨source, h, rfl⟩
  | answer a frames s =>
    cases frames with
    | nil => exact .inl ((sourceFree_conclude a).ahead h)
    | cons frame frames =>
      cases a with
      | ok => exact ahead_resume frames hm.isReplay_or_reads h
      | error failure => exact .inl ((sourceFree_fail failure frames frame).ahead h)

/-- The two machines stay in lockstep, or the first one has met the end of its text. -/
theorem Ahead.iterate {more : List Char} {m k : Machine σ} (h : Ahead more m k)
    (hd : m.session.dictionary.Standard) (hm : Nested m) (n : Nat) :
    Ahead more (Machine.step^[n] m) (Machine.step^[n] k) ∨ Dry (Machine.step^[n] m) := by
  induction n with
  | zero => exact .inl h
  | succ n ih =>
    rw [Function.iterate_succ_apply', Function.iterate_succ_apply']
    rcases ih with hahead | hdry
    · exact hahead.step (nested_iterate hd hm n)
    · exact .inr hdry.step

/-- A machine that ends by `bye` is in lockstep with every one that is ahead of it. -/
theorem Ahead.iterate_of_terminated {more : List Char} {m k : Machine σ} (h : Ahead more m k)
    (hd : m.session.dictionary.Standard) (hm : Nested m) {last : Nat} {s : Session Empty σ}
    (hend : Machine.step^[last] m = .ended (.ok .terminated s)) (n : Nat) :
    Ahead more (Machine.step^[n] m) (Machine.step^[n] k) := by
  refine (h.iterate hd hm n).resolve_right fun hdry => ?_
  have hlater := hdry.iterate last
  rw [← Function.iterate_add_apply, Nat.add_comm, Function.iterate_add_apply, hend,
    iterate_ended] at hlater
  cases hlater with
  | ended hne => exact hne rfl

end Machine

end Forth
