import Forth.Proofs.Definition.Place
import Forth.Proofs.Run.Containment
import Forth.Proofs.Session.Failing

/-! # Where a definition without an end is reported

A definition is reported at the place that was current when it began. A token
notes its place when it is evaluated, and the words of a replay leave it as it
is, but each comment in a body notes its own. So a definition is reported where
it started unless the same token has completed a definition with a comment in
it before. Then it is reported at the last such comment.
-/

namespace Forth

open Session

variable {σ : Type}

/-- The comments in the bodies of the definitions that invoking the behavior completes. -/
def Behavior.comments : Behavior Empty → Session Empty σ → List Token
  | primitive .colon, s =>
    match define .none s with
    | .ok _ _ => s.draft.1.comments
    | .error _ _ => []
  | primitive _, _ => []
  | literal _, _ => []
  | compiled steps, s => replay steps s
where
  replay : List (Step Empty) → Session Empty σ → List Token
    | [], _ => []
    | (b, name) :: rest, s =>
      if s.exiting then []
      else
        b.comments s ++
          match invoke .none b name s with
          | .ok _ t => replay rest t
          | .error _ _ => []

/-- The comments in the bodies of the definitions that evaluating the token completes. -/
def Token.comments (t : Token) (s : Session Empty σ) : List Token :=
  match s.dictionary.resolve t with
  | none => []
  | some w => w.behavior.comments { s with current := some t.location }

/-- The run evaluates the token in the second session, and comes to `:` in the third one, where the
input ends before the definition does. -/
structure CutsOff (s : Session Empty σ) (t : Token) (w v : Session Empty σ) : Prop where
  evaluates : Evaluates s t w
  starts : t.Starts w v
  ending : v.draft.1.ending = .cutOff

/-- The place of the last of the tokens, or the one before them if there are none. -/
def lastPlace (place : Option Location) (tokens : List Token) : Option Location :=
  tokens.foldl (fun _ t => some t.location) place

theorem lastPlace_append (place : Option Location) (tokens more : List Token) :
    lastPlace place (tokens ++ more) = lastPlace (lastPlace place tokens) more :=
  List.foldl_append

theorem lastPlace_some (t : Token) (tokens : List Token) :
    lastPlace (some t.location) tokens = some (tokens.getLast?.getD t).location := by
  induction tokens using List.reverseRecOn with
  | nil => rfl
  | append_singleton tokens c => simp [lastPlace]

namespace Behavior

variable {b : Behavior Empty} {s t u v : Session Empty σ} {failure : Failure} {step : Step Empty}
  {rest : List (Step Empty)}

theorem comments_primitive {p : Primitive} (hp : p ≠ .colon) :
    (primitive p).comments s = [] := by
  cases p with
  | colon => exact absurd rfl hp
  | _ => rfl

theorem comments_primitive_of_error {p : Primitive} {name : String}
    (h : p.run (define .none) name s = .error failure u) : (primitive p).comments s = [] := by
  by_cases hp : p = .colon
  · subst hp
    have hdefine : define .none s = .error failure u := h
    rw [comments, hdefine]
  · exact comments_primitive hp

theorem comments_cons_of_ok (hexit : s.exiting = false)
    (h : invoke .none step.1 step.2 s = .ok () t) :
    (compiled (step :: rest)).comments s = step.1.comments s ++ (compiled rest).comments t := by
  simp only [comments, comments.replay, hexit, h, Bool.false_eq_true, if_false]

theorem comments_cons_of_error (hexit : s.exiting = false)
    (h : invoke .none step.1 step.2 s = .error failure t) :
    (compiled (step :: rest)).comments s = step.1.comments s := by
  simp only [comments, comments.replay, hexit, h, Bool.false_eq_true, if_false, List.append_nil]

theorem comments_cons_of_exiting (hexit : s.exiting = true) :
    (compiled (step :: rest)).comments s = [] := by
  simp only [comments, comments.replay, hexit, if_true]

/-- Every one of the comments is in the body of a definition that the behavior starts. -/
theorem exists_performs_of_mem_comments {c : Token} (h : c ∈ b.comments s) (name : String) :
    ∃ word v, b.Performs name s .colon word v ∧ c ∈ v.draft.1.comments := by
  induction b using steps_induction generalizing s name with
  | primitive p =>
    by_cases hp : p = .colon
    · subst hp
      refine ⟨name, s, .primitive .., ?_⟩
      rw [comments] at h
      split at h
      · exact h
      · cases h
    · rw [comments_primitive hp] at h
      cases h
  | literal | nil => cases h
  | cons step rest ih ihr =>
    have hfirst (hc : c ∈ step.1.comments s) (hexit : s.exiting = false) :
        ∃ word v, (compiled (step :: rest)).Performs name s .colon word v ∧
          c ∈ v.draft.1.comments := by
      obtain ⟨word, v, hv, hmem⟩ := ih hc step.2
      exact ⟨word, v, .first hexit hv, hmem⟩
    cases hexit : s.exiting with
    | true =>
      rw [comments_cons_of_exiting hexit] at h
      cases h
    | false =>
      cases hinvoke : invoke .none step.1 step.2 s with
      | error failure t =>
        rw [comments_cons_of_error hexit hinvoke] at h
        exact hfirst h hexit
      | ok _ t =>
        rw [comments_cons_of_ok hexit hinvoke] at h
        rcases List.mem_append.mp h with hc | hc
        · exact hfirst hc hexit
        · obtain ⟨word, v, hv, hmem⟩ := ihr hc name
          exact ⟨word, v, .later hexit hinvoke hv, hmem⟩

end Behavior

section Current

variable {b : Behavior Empty} {s t u v w : Session Empty σ} {failure : Failure}
  {name word : String} {p : Primitive}

theorem current_of_define (hs : Reachable s) (h : define .none s = .ok () t) :
    t.current = lastPlace s.current s.draft.1.comments := by
  obtain ⟨failure, -, hdefine⟩ | ⟨name, -, -, hdefine⟩ := define_of_standard .none hs.standard
  · rw [hdefine] at h
    cases h
  · rw [hdefine] at h
    cases h
    rfl

/-- Only comments move the current place. -/
theorem current_of_invoke (hs : Reachable s) (h : invoke .none b name s = .ok () t) :
    t.current = lastPlace s.current (b.comments s) := by
  induction b using Behavior.steps_induction generalizing name s t with
  | primitive p =>
    by_cases hp : p = .colon
    · subst hp
      have hdefine : define .none s = .ok () t := h
      rw [Behavior.comments, hdefine]
      exact current_of_define hs hdefine
    · obtain ⟨stack, source, output, exiting, -, hrun⟩ :=
        Primitive.state_run hp (define .none) name s
      have ht : (p.run (define .none) name s).state = t := congrArg EStateM.Result.state h
      rw [Behavior.comments_primitive hp, ← ht, hrun]
      rfl
  | literal | nil =>
    cases h
    rfl
  | cons step rest ih ihr =>
    cases hexit : s.exiting with
    | true =>
      rw [Behavior.invoke_cons_of_exiting hexit] at h
      cases h
      rw [Behavior.comments_cons_of_exiting hexit]
      rfl
    | false =>
      cases hinvoke : invoke .none step.1 step.2 s with
      | error failure u =>
        rw [Behavior.invoke_cons_of_error hexit hinvoke] at h
        cases h
      | ok _ u =>
        rw [Behavior.invoke_cons_of_ok hexit hinvoke] at h
        have hu := (Reachable.invariant.invoke _ _).of_ok hinvoke hs
        rw [Behavior.comments_cons_of_ok hexit hinvoke, lastPlace_append, ← ih hs hinvoke]
        exact ihr hu h

/-- Where a primitive fails, the current place is that of the last comment before it. -/
theorem Behavior.Performs.current_eq (h : b.Performs name s p word v) (hs : Reachable s)
    (hv : p.run (define .none) word v = .error failure u) :
    v.current = lastPlace s.current (b.comments s) := by
  induction h with
  | primitive =>
    rw [comments_primitive_of_error hv]
    rfl
  | first hexit hfirst ih =>
    rw [comments_cons_of_error hexit (hfirst.invoke_error hv)]
    exact ih hs hv
  | later hexit hok _ ih =>
    rw [comments_cons_of_ok hexit hok, lastPlace_append, ← current_of_invoke hs hok]
    exact ih ((Reachable.invariant.invoke _ _).of_ok hok hs) hv

theorem Token.Starts.current_eq {t : Token} (h : t.Starts w v) (hw : Reachable w)
    (hv : define .none v = .error failure u) :
    v.current = some ((t.comments w).getLast?.getD t).location := by
  obtain ⟨_, word, hword, hperforms⟩ := h
  rw [hperforms.current_eq (hw.moved t.location) hv, lastPlace_some, Token.comments, hword]

end Current

section Truncated

variable {s u v w : Session Empty σ} {t : Token} {failure : Failure}

/-- Nothing but a `:` fails because a definition has no end. -/
theorem exists_starts_of_truncated (h : evaluate .none t s = .error failure u)
    (hcause : failure.cause = .truncatedDefinition) :
    ∃ v x, t.Starts s v ∧ define .none v = .error failure x := by
  obtain ⟨_, x, -, ha⟩ | ⟨failed, x, hr, -, ha⟩ | ⟨failed, x, -, -, ha⟩ :=
    attempt_cases (runToken .none t) s
  · have hok := (bind_of_ok ha).symm.trans h
    cases hok
  · have hfailed := (bind_of_error ha).symm.trans h
    cases hfailed
    obtain ⟨rfl, -⟩ | ⟨p, word, v, hperforms, hrun⟩ := exists_performs_of_runToken_error hr
    · cases hcause
    · by_cases hp : p = .colon
      · subst hp
        exact ⟨v, _, ⟨word, hperforms⟩, hrun⟩
      · exact absurd hcause (FailsUnplaced.run hp (define .none) word _ _ _ hrun).cause_ne
  · have hprint := (bind_of_ok ha).symm.trans h
    exact absurd hcause ((FailsByIo.print _).unplaced _ _ _ hprint).cause_ne

/-- A run that fails because a definition has no end comes to that definition. -/
theorem exists_cutsOff (hs : Reachable s) (h : run .none s = .error failure u)
    (hcause : failure.cause = .truncatedDefinition) : ∃ t w v, CutsOff s t w v := by
  obtain ⟨t, w, hevaluates, hfailed⟩ | ⟨v, -, hflush | hread⟩ :=
    run_error_cases Invariant.always trivial hs.standard h
  · obtain ⟨v, x, hstarts, hdefine⟩ := exists_starts_of_truncated hfailed hcause
    obtain ⟨hfails, -⟩ := fails_of_define_error (hs.of_run hevaluates hstarts).standard hdefine
    cases hfails with
    | reading | unknown => cases hcause
    | truncated hend => exact ⟨t, w, v, hevaluates, hstarts, hend⟩
  · exact absurd hcause (FailsByIo.flush.unplaced _ _ _ hflush).cause_ne
  · exact absurd hcause (FailsByIo.nextToken.unplaced _ _ _ hread).cause_ne

namespace CutsOff

theorem evaluate_eq (h : CutsOff s t w v) (hs : Reachable s) :
    evaluate .none t w = .error v.truncated v.drafted :=
  evaluate_of_truncated (hs.of_run h.evaluates h.starts).standard h.starts h.ending

/-- The run fails with the definition. -/
theorem run_eq (h : CutsOff s t w v) (hs : Reachable s) :
    run .none s = .error v.truncated v.drafted := by
  rw [h.evaluates.run_eq_of_standard hs.standard]
  exact bind_of_error (h.evaluate_eq hs)

theorem current_eq (h : CutsOff s t w v) (hs : Reachable s) :
    v.current = some ((t.comments w).getLast?.getD t).location := by
  have hv := (hs.of_run h.evaluates h.starts).standard
  have hw : Reachable w := Reachable.invariant.of_evaluates h.evaluates hs
  exact h.starts.current_eq hw (define_of_fails .none hv (.truncated h.ending))

/-- A token whose evaluation succeeds is not the one. -/
theorem of_ok {token : Token} {x y : Session Empty σ} (h : CutsOff s t w v) (hs : Reachable s)
    (hturn : Turn s token x) (hok : evaluate .none token x = .ok () y) : CutsOff y t w v := by
  have hfailed := h.evaluate_eq hs
  obtain ⟨hevaluates, hstarts, hend⟩ := h
  cases hevaluates with
  | now hfirst =>
    obtain ⟨rfl, rfl⟩ := hfirst.unique hturn
    rw [hok] at hfailed
    cases hfailed
  | later hfirst hfirstOk hlater =>
    obtain ⟨rfl, rfl⟩ := hfirst.unique hturn
    rw [hok] at hfirstOk
    cases hfirstOk
    exact ⟨hlater, hstarts, hend⟩

theorem eq_of_error {token : Token} {x y : Session Empty σ} (h : CutsOff s t w v)
    (hturn : Turn s token x) (hfailed : evaluate .none token x = .error failure y) : t = token := by
  obtain ⟨hevaluates, -, -⟩ := h
  cases hevaluates with
  | now hfirst => exact (hfirst.unique hturn).1
  | later hfirst hok =>
    obtain ⟨rfl, rfl⟩ := hfirst.unique hturn
    rw [hfailed] at hok
    cases hok

end CutsOff

section HasRead

variable {path : String} {before : List Char}

theorem Turn.past (h : Turn s t w) (hs : s.HasRead path before) :
    ∃ read word, word ≠ [] ∧ t.location = .behind path read ∧ w.HasRead path (read ++ word) := by
  obtain ⟨x, hflush, -, hread⟩ := h
  have hx := (Session.HasRead.invariant path before).flush.of_ok hflush hs
  obtain ⟨u, hu, rfl⟩ := exists_of_onSource_ok hread
  obtain ⟨read, word, hword, hlocation, hu⟩ := hx.source.past hu
  exact ⟨read, word, hword, hlocation, hx.standard, hu⟩

theorem Evaluates.past (h : Evaluates s t w) (hs : s.HasRead path before) :
    ∃ read word, word ≠ [] ∧ t.location = .behind path read ∧ w.HasRead path (read ++ word) := by
  have hI := Session.HasRead.invariant (σ := σ) path before
  induction h with
  | now hturn => exact hturn.past hs
  | later hturn hok _ ih => exact ih ((hI.evaluate _).of_ok hok (hI.of_turn hturn hs))

/-- The comments stand behind the token that is evaluated. -/
theorem location_ne_of_mem_comments {c : Token} (hs : s.HasRead path before)
    (h : Evaluates s t w) (hc : c ∈ t.comments w) : c.location ≠ t.location := by
  obtain ⟨read, word, hword, hlocation, hw⟩ := h.past hs
  rw [Token.comments] at hc
  cases hresolve : w.dictionary.resolve t with
  | none =>
    rw [hresolve] at hc
    cases hc
  | some x =>
    rw [hresolve] at hc
    obtain ⟨_, v, hperforms, hmem⟩ := Behavior.exists_performs_of_mem_comments hc x.name
    have hI := Session.HasRead.invariant (σ := σ) path (read ++ word)
    have hv := hI.of_behavior_performs hperforms (hI.place w t.location hw)
    rw [hlocation]
    exact ((hv.source.draft _).2 c hmem).location_ne hword

end HasRead

end Truncated

theorem exists_run_of_processText {s : Session Empty σ} {path text : String} {failure : Failure}
    (h : (processText .none path text s).answer = .error failure) :
    ∃ u, run .none (s.entering (.ofText path text)) = .error failure u := by
  rw [processText, answer_runSource] at h
  cases hr : run .none (s.entering (.ofText path text)) with
  | ok ending u =>
    rw [hr] at h
    cases h
  | error failed u =>
    rw [hr] at h
    cases h
    exact ⟨u, rfl⟩

/-- A definition without an end is reported where it started, unless the same token has completed a
definition with a comment in it before. Then the last of these comments is where it is reported. -/
theorem location_of_truncated {s : Session Empty σ} (hs : Reachable s) {path text : String}
    {failure : Failure} (h : (processText .none path text s).answer = .error failure)
    (hcause : failure.cause = .truncatedDefinition) :
    (∃ t w v, CutsOff (s.entering (.ofText path text)) t w v) ∧
      ∀ t w v, CutsOff (s.entering (.ofText path text)) t w v →
        failure.location = some ((t.comments w).getLast?.getD t).location ∧
          (failure.location = some t.location ↔ t.comments w = []) := by
  have hstart : Reachable (s.entering (.ofText path text)) := hs.read _
  have hread : (s.entering (.ofText path text)).HasRead path [] :=
    ⟨hs.standard, [], text.toList, Source.ofText_eq_between path text⟩
  obtain ⟨u, hr⟩ := exists_run_of_processText h
  refine ⟨exists_cutsOff hstart hr hcause, fun t w v hcut => ?_⟩
  have hfailure := (hcut.run_eq hstart).symm.trans hr
  cases hfailure
  have hlocation : v.truncated.location = some ((t.comments w).getLast?.getD t).location :=
    hcut.current_eq hstart
  refine ⟨hlocation, ?_⟩
  rw [hlocation]
  constructor
  · intro heq
    cases hlast : (t.comments w).getLast? with
    | none => exact List.getLast?_eq_none_iff.mp hlast
    | some c =>
      rw [hlast] at heq
      have hmem := List.mem_of_getLast? hlast
      exact absurd (Option.some.inj heq) (location_ne_of_mem_comments hread hcut.evaluates hmem)
  · intro hnone
    rw [hnone]
    rfl

/-- Here the second `:` of a replay takes the last `:` for its name. The comment was read on behalf of
another token. -/
theorem location_of_truncated_replayed :
    let s : Session Empty Unit :=
      { dictionary := Dictionary.empty.definePrimitives, source := .ofText "" "", hostState := () }
    let text := ": two : : ; two a \\ note\ndup ; b ; 1 two c ; :"
    let failure : Failure :=
      { cause := .truncatedDefinition, location := some { path := "", line := 2, column := 13 } }
    Reachable s ∧ (processText .none "" text s).answer = .error failure ∧
      (∃ t w v, CutsOff (s.entering (.ofText "" text)) t w v) ∧
      ∀ t w v, CutsOff (s.entering (.ofText "" text)) t w v →
        failure.location = some ((t.comments w).getLast?.getD t).location ∧
          (failure.location = some t.location ↔ t.comments w = []) := by
  intro s text failure
  have hs : Reachable s := .start _ ()
  have h : (processText .none "" text s).answer = .error failure := by decide +kernel
  exact ⟨hs, h, location_of_truncated hs h rfl⟩

/-- The second definition that `two` starts has no end. It is reported at the comment in the first
one. -/
theorem not_reported_where_started :
    let s : Session Empty Unit :=
      { dictionary := Dictionary.empty.definePrimitives, source := .ofText "" "", hostState := () }
    let text := ": two : : ; two a \\ note\ndup ; b"
    ∃ failure, Reachable s ∧ (processText .none "<test>" text s).answer = .error failure ∧
      failure.cause = .truncatedDefinition ∧
      (∃ t w v, CutsOff (s.entering (.ofText "<test>" text)) t w v) ∧
      ∀ t w v, CutsOff (s.entering (.ofText "<test>" text)) t w v →
        failure.location ≠ some t.location := by
  intro s text
  let failure : Failure :=
    { cause := .truncatedDefinition, location := some { path := "<test>", column := 19 } }
  have hs : Reachable s := .start _ ()
  have h : (processText .none "<test>" text s).answer = .error failure := by decide +kernel
  obtain ⟨u, hrun⟩ := exists_run_of_processText h
  refine ⟨failure, hs, h, rfl, exists_cutsOff (hs.read _) hrun rfl, fun t w v hcut => ?_⟩
  -- the run evaluates the definition of `two`, and then `two`
  let start := s.entering (.ofText "<test>" text)
  let colon : Token := { text := ":", location := { path := "<test>" } }
  let two : Token := { text := "two", location := { path := "<test>", column := 13 } }
  let first := (nextToken (flush start).state).state
  let middle := (evaluate .none colon first).state
  let second := (nextToken (flush middle).state).state
  have hfirst : Turn start colon first :=
    ⟨_, eq_ok_of_answer (by decide +kernel), by decide +kernel, eq_ok_of_answer (by decide +kernel)⟩
  have hsecond : Turn middle two second :=
    ⟨_, eq_ok_of_answer (by decide +kernel), by decide +kernel, eq_ok_of_answer (by decide +kernel)⟩
  have hok : evaluate .none colon first = .ok () middle := eq_ok_of_answer (by decide +kernel)
  have hfailed : (evaluate .none two second).answer = .error failure := by decide +kernel
  have hlater := hcut.of_ok (hs.read _) hfirst hok
  have heq : t = two := by
    cases hevaluate : evaluate .none two second with
    | ok _ u =>
      rw [hevaluate] at hfailed
      cases hfailed
    | error failed u => exact hlater.eq_of_error hsecond hevaluate
  rw [heq]
  decide

end Forth
