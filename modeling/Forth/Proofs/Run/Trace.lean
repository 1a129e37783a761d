import Forth.Proofs.Definition.Atomic
import Forth.Proofs.Run.Progress
import Forth.Proofs.Session.Reliable

/-! # What a run comes to

A run evaluates tokens, one in each turn. The word that a token refers to comes
to primitives, at once or in the middle of a replay. Where reading and writing do
not fail, only two of them can: a `:`, and the listing of a dictionary. They make
everything fail that came to them.
-/

namespace Forth

open Session

variable {σ : Type}

/-- While the behavior is invoked under the name, the primitive is performed in the second session
under the second name. -/
inductive Behavior.Performs :
    Behavior Empty → String → Session Empty σ → Primitive → String → Session Empty σ → Prop
  | primitive (p : Primitive) (name : String) (s : Session Empty σ) :
      Performs (.primitive p) name s p name s
  | first {step : Step Empty} {rest : List (Step Empty)} {name word : String} {p : Primitive}
      {s v : Session Empty σ} :
      s.exiting = false → Performs step.1 step.2 s p word v →
      Performs (.compiled (step :: rest)) name s p word v
  | later {step : Step Empty} {rest : List (Step Empty)} {name word : String} {p : Primitive}
      {s t v : Session Empty σ} :
      s.exiting = false → invoke .none step.1 step.2 s = .ok () t →
      Performs (.compiled rest) name t p word v → Performs (.compiled (step :: rest)) name s p word v

/-- While the token is evaluated, the primitive is performed in the second session. -/
def Token.Performs (t : Token) (s : Session Empty σ) (p : Primitive) (word : String)
    (v : Session Empty σ) : Prop :=
  ∃ w, s.dictionary.resolve t = some w ∧
    w.behavior.Performs w.name { s with current := some t.location } p word v

/-- Evaluating the token in a session comes to `:` in another one. -/
def Token.Starts (t : Token) (s v : Session Empty σ) : Prop :=
  ∃ word, t.Performs s .colon word v

/-- Evaluating the token in a session comes to a listing of the dictionary in another one. -/
def Token.Lists (t : Token) (s v : Session Empty σ) : Prop :=
  ∃ word, t.Performs s .dotDictionary word v

/-- The next turn of a run reads a token and evaluates it in the second session. -/
def Turn (s : Session Empty σ) (t : Token) (w : Session Empty σ) : Prop :=
  ∃ v, flush s = .ok () v ∧ v.exiting = false ∧ nextToken v = .ok (some t) w

theorem Turn.unique {s w x : Session Empty σ} {t u : Token} (h : Turn s t w) (k : Turn s u x) :
    t = u ∧ w = x := by
  obtain ⟨y, hflush, -, hread⟩ := h
  obtain ⟨z, hflush', -, hread'⟩ := k
  rw [hflush] at hflush'
  cases hflush'
  rw [hread] at hread'
  cases hread'
  exact ⟨rfl, rfl⟩

/-- Some turn of a run evaluates the token in the second session. -/
inductive Evaluates : Session Empty σ → Token → Session Empty σ → Prop
  | now {s w : Session Empty σ} {t : Token} : Turn s t w → Evaluates s t w
  | later {s w x y : Session Empty σ} {t u : Token} : Turn s t w →
      evaluate .none t w = .ok () x → Evaluates x u y → Evaluates s u y

namespace Invariant

variable {I : Session Empty σ → Prop} {s v w : Session Empty σ} {t : Token} {p : Primitive}
  {name word : String}

theorem of_behavior_performs (hI : Invariant I) {b : Behavior Empty}
    (h : b.Performs name s p word v) (hs : I s) : I v := by
  induction h with
  | primitive => exact hs
  | first _ _ ih => exact ih hs
  | later _ hok _ ih => exact ih ((hI.invoke _ _).of_ok hok hs)

theorem of_performs (hI : Invariant I) (h : t.Performs s p word v) (hs : I s) : I v := by
  obtain ⟨_, -, hperforms⟩ := h
  exact hI.of_behavior_performs hperforms (hI.place s t.location hs)

theorem of_turn (hI : Invariant I) (h : Turn s t w) (hs : I s) : I w := by
  obtain ⟨v, hflush, -, hread⟩ := h
  exact hI.nextToken.of_ok hread (hI.flush.of_ok hflush hs)

theorem of_evaluates (hI : Invariant I) (h : Evaluates s t w) (hs : I s) : I w := by
  induction h with
  | now hturn => exact hI.of_turn hturn hs
  | later hturn hok _ ih => exact ih ((hI.evaluate _).of_ok hok (hI.of_turn hturn hs))

end Invariant

/-- A run comes to each of its definitions in a session that can arise. -/
theorem Reachable.of_run {s w v : Session Empty σ} {t : Token} (hs : Reachable s)
    (h : Evaluates s t w) (hv : t.Starts w v) : Reachable v := by
  obtain ⟨_, hperforms⟩ := hv
  exact Reachable.invariant.of_performs hperforms (Reachable.invariant.of_evaluates h hs)

section Invoke

variable {b : Behavior Empty} {p : Primitive} {s u v : Session Empty σ} {failure : Failure}
  {name word : String}

/-- A primitive makes everything fail that came to it. -/
theorem Behavior.Performs.invoke_error (h : b.Performs name s p word v)
    (hv : p.run (define .none) word v = .error failure u) :
    invoke .none b name s = .error failure u := by
  induction h with
  | primitive => exact hv
  | first hexit _ ih => exact invoke_cons_of_error hexit (ih hv)
  | later hexit hok _ ih => exact (invoke_cons_of_ok hexit hok).trans (ih hv)

/-- A replay that fails does so in its first step or in the rest of it. -/
theorem replay_error_cases {step : Step Empty} {rest : List (Step Empty)}
    (h : invoke .none (.compiled (step :: rest)) name s = .error failure u) :
    s.exiting = false ∧
      (invoke .none step.1 step.2 s = .error failure u ∨
        ∃ t, invoke .none step.1 step.2 s = .ok () t ∧
          invoke .none (.compiled rest) name t = .error failure u) := by
  rw [invoke, Behavior.invokeWith_cons] at h
  cases hexit : s.exiting with
  | true =>
    rw [Behavior.replayStep_of_exiting hexit] at h
    cases h
  | false =>
    rw [Behavior.replayStep_of_not_exiting hexit] at h
    obtain hfirst | ⟨_, t, hok, hrest⟩ := bind_error_cases h
    · exact ⟨rfl, .inl hfirst⟩
    · exact ⟨rfl, .inr ⟨t, hok, hrest⟩⟩

/-- What fails in an invocation is a primitive that it comes to. -/
theorem exists_performs_of_invoke_error (h : invoke .none b name s = .error failure u) :
    ∃ p word v, b.Performs name s p word v ∧ p.run (define .none) word v = .error failure u := by
  induction b using Behavior.steps_induction generalizing name s with
  | primitive p => exact ⟨p, name, s, .primitive p name s, h⟩
  | literal | nil => cases h
  | cons step rest ih ihr =>
    obtain ⟨hexit, hfirst | ⟨t, hok, hrest⟩⟩ := replay_error_cases h
    · obtain ⟨p, word, v, hv, hrun⟩ := ih hfirst
      exact ⟨p, word, v, .first hexit hv, hrun⟩
    · obtain ⟨p, word, v, hv, hrun⟩ := ihr hrest
      exact ⟨p, word, v, .later hexit hok hv, hrun⟩

theorem listing_of_error {define : SessionM Empty σ Unit} (hs : s.Reliable)
    (h : Primitive.dotDictionary.run define name s = .error failure u) :
    s.dictionary.listing = .error failure := by
  have hprint : printOrFail s.dictionary.listing s = .error failure u := h
  cases hl : s.dictionary.listing with
  | ok text =>
    rw [hl] at hprint
    have hok := (print_of_reliable hs.output text).symm.trans hprint
    cases hok
  | error failed =>
    rw [hl] at hprint
    cases hprint
    rfl

end Invoke

def Session.reported (s : Session Empty σ) (t : Token) : Session Empty σ :=
  { s with output := s.output.append s!"unknown word: {t.text}\n" }

section Evaluate

variable {s u v : Session Empty σ} {t x : Token} {failure : Failure}

theorem evaluate_of_unresolved (hs : s.Reliable) (ht : s.dictionary.resolve t = none) :
    evaluate .none t s = .ok () (s.reported t) := by
  have hrun : runToken .none t s = .error t.unknown s := by
    rw [runToken, get_bind_apply, ht]
    rfl
  rw [evaluate, bind_of_ok (attempt_of_recoverable hrun rfl)]
  exact print_of_reliable hs.output _

theorem Token.Starts.reliable (h : t.Starts s v) (hs : s.Reliable) : v.Reliable := by
  obtain ⟨_, hperforms⟩ := h
  exact Session.Reliable.invariant.of_performs hperforms hs

theorem Token.Performs.runToken_error {p : Primitive} {word : String} (h : t.Performs s p word v)
    (hv : p.run (define .none) word v = .error failure u) :
    runToken .none t s = .error failure u := by
  obtain ⟨w, hw, hperforms⟩ := h
  rw [runToken, get_bind_apply, hw]
  exact hperforms.invoke_error hv

theorem runToken_of_starts (hd : v.dictionary.Standard) (h : t.Starts s v)
    (hv : v.draft.1.Fails v failure) : runToken .none t s = .error failure v.drafted := by
  obtain ⟨_, hperforms⟩ := h
  exact hperforms.runToken_error (define_of_fails .none hd hv)

/-- A token fails if it refers to nothing, or with a primitive that it comes to. -/
theorem exists_performs_of_runToken_error (h : runToken .none t s = .error failure u) :
    (failure = t.unknown ∧ u = s) ∨
      ∃ p word v, t.Performs s p word v ∧ p.run (define .none) word v = .error failure u := by
  rw [runToken, get_bind_apply] at h
  cases hw : s.dictionary.resolve t with
  | none =>
    rw [hw] at h
    cases h
    exact .inl ⟨rfl, rfl⟩
  | some w =>
    rw [hw] at h
    obtain ⟨p, word, v, hperforms, hrun⟩ := exists_performs_of_invoke_error h
    exact .inr ⟨p, word, v, ⟨w, hw, hperforms⟩, hrun⟩

/-- Nothing else makes a token fail but a definition and a listing that is too wide. -/
theorem runToken_error_cases (hs : s.Reliable) (h : runToken .none t s = .error failure u) :
    (failure = t.unknown ∧ u = s) ∨
      (∃ v, t.Starts s v ∧ v.draft.1.Fails v failure ∧ u = v.drafted) ∨
      ∃ v, t.Lists s v ∧ v.dictionary.listing = .error failure := by
  obtain hunknown | ⟨p, word, v, hperforms, hrun⟩ := exists_performs_of_runToken_error h
  · exact .inl hunknown
  · have hv := Session.Reliable.invariant.of_performs hperforms hs
    by_cases hcolon : p = .colon
    · subst hcolon
      obtain ⟨hfails, hu⟩ := fails_of_define_error hv.standard hrun
      exact .inr (.inl ⟨v, ⟨word, hperforms⟩, hfails, hu⟩)
    · by_cases hd : p = .dotDictionary
      · subst hd
        exact .inr (.inr ⟨v, ⟨word, hperforms⟩, listing_of_error hv hrun⟩)
      · obtain ⟨a, x, hok, -⟩ := Succeeds.run ⟨hcolon, hd⟩ (define .none) word v hv
        rw [hok] at hrun
        cases hrun

theorem evaluate_of_truncated (hd : v.dictionary.Standard) (h : t.Starts s v)
    (hend : v.draft.1.ending = .cutOff) :
    evaluate .none t s = .error v.truncated v.drafted :=
  bind_of_error (attempt_of_fatal (runToken_of_starts hd h (.truncated hend)) rfl)

theorem evaluate_of_cutOff (hs : s.Reliable) (h : t.Starts s v)
    (hend : v.draft.1.ending = .cutOff) :
    evaluate .none t s = .error v.truncated v.drafted :=
  evaluate_of_truncated (h.reliable hs).standard h hend

/-- A listing that is too wide stops an evaluation. -/
theorem evaluate_of_listing_error (h : t.Lists s v) (hv : v.dictionary.listing = .error failure) :
    evaluate .none t s = .error failure v := by
  obtain ⟨word, hperforms⟩ := h
  have hrun : Primitive.dotDictionary.run (define .none) word v = .error failure v := by
    change printOrFail v.dictionary.listing v = _
    rw [hv]
    rfl
  obtain ⟨rfl, -⟩ := Dictionary.listing_eq_error_iff.mp hv
  exact bind_of_error (attempt_of_fatal (hperforms.runToken_error hrun) rfl)

/-- An unknown word in a definition is reported, and nothing else is done for the token. -/
theorem evaluate_of_unknown (hs : s.Reliable) (h : t.Starts s v)
    (hx : v.draft.1.Fails v x.unknown) :
    evaluate .none t s = .ok () (v.drafted.reported x) := by
  have hfailed := runToken_of_starts (h.reliable hs).standard h hx
  rw [evaluate, bind_of_ok (attempt_of_recoverable hfailed rfl)]
  exact print_of_reliable (h.reliable hs).drafted.output _

/-- Nothing stops an evaluation but a definition without an end and a listing that is too wide. -/
theorem evaluate_error_cases (hs : s.Reliable) (h : evaluate .none t s = .error failure u) :
    (∃ v, t.Starts s v ∧ v.draft.1.ending = .cutOff ∧ failure = v.truncated) ∨
      ∃ v, t.Lists s v ∧ v.dictionary.listing = .error failure := by
  have hx := Session.Reliable.invariant.runToken t s hs
  obtain ⟨_, x, -, ha⟩ | ⟨failed, x, hr, hfatal, ha⟩ | ⟨failed, x, hr, -, ha⟩ :=
    attempt_cases (runToken .none t) s
  · have hok := (bind_of_ok ha).symm.trans h
    cases hok
  · have hfailed := (bind_of_error ha).symm.trans h
    cases hfailed
    obtain ⟨rfl, -⟩ | ⟨v, hstarts, hfails, -⟩ | hlists := runToken_error_cases hs hr
    · cases hfatal
    · cases hfails with
      | reading hend => exact absurd (Source.met_draft hend) (hstarts.reliable hs).source.not_met
      | truncated hend => exact .inl ⟨v, hstarts, hend, rfl⟩
      | unknown => cases hfatal
    · exact .inr hlists
  · rw [hr] at hx
    have hprint := (bind_of_ok ha).symm.trans h
    have hok := (print_of_reliable hx.output _).symm.trans hprint
    cases hok

end Evaluate

section Run

variable {s u w x : Session Empty σ} {t : Token} {failure : Failure}

theorem Turn.run_eq (h : Turn s t w) (hd : s.dictionary.Standard) :
    run .none s = (do evaluate .none t; run .none : SessionM Empty σ Ending) w := by
  obtain ⟨v, hflush, hexit, hread⟩ := h
  rw [run_eq_runTurn hd]
  exact runTurn_of_token hflush hexit hread

theorem Evaluates.reliable (h : Evaluates s t w) (hs : s.Reliable) : w.Reliable :=
  Session.Reliable.invariant.of_evaluates h hs

theorem Evaluates.run_eq_of_standard (h : Evaluates s t w) (hd : s.dictionary.Standard) :
    run .none s = (do evaluate .none t; run .none : SessionM Empty σ Ending) w := by
  induction h with
  | now hturn => exact hturn.run_eq hd
  | @later s w x y t u hturn hok _ ih =>
    have hI := Session.Within.invariant (σ := σ) s.source.unread.length
    have hx := (hI.evaluate t).of_ok hok (hI.of_turn hturn ⟨hd, le_rfl⟩)
    rw [hturn.run_eq hd, bind_of_ok hok]
    exact ih hx.standard

theorem Evaluates.run_eq (h : Evaluates s t w) (hs : s.Reliable) :
    run .none s = (do evaluate .none t; run .none : SessionM Empty σ Ending) w :=
  h.run_eq_of_standard hs.standard

/-- A run fails where it flushes, where it reads, or where it evaluates a token. -/
theorem run_error_cases {I : Session Empty σ → Prop} (hI : Invariant I) (hs : I s)
    (hd : s.dictionary.Standard) (h : run .none s = .error failure u) :
    (∃ t w, Evaluates s t w ∧ evaluate .none t w = .error failure u) ∨
      ∃ v, I v ∧ (flush v = .error failure u ∨ nextToken v = .error failure u) := by
  -- each turn leaves less to read
  induction hn : s.source.unread.length using Nat.strong_induction_on generalizing s with
  | _ n ih =>
    subst hn
    rw [run_eq_runTurn hd] at h
    cases hflush : flush s with
    | error failed v =>
      rw [runTurn_of_flush_error hflush] at h
      cases h
      exact .inr ⟨s, hs, .inl hflush⟩
    | ok _ v =>
      have hv := hI.flush.of_ok hflush hs
      cases hexit : v.exiting with
      | true =>
        rw [runTurn_of_exiting hflush hexit] at h
        cases h
      | false =>
        cases hread : nextToken v with
        | error failed w =>
          rw [runTurn_of_read_error hflush hexit hread] at h
          cases h
          exact .inr ⟨v, hv, .inr hread⟩
        | ok token w =>
          have hw := hI.nextToken.of_ok hread hv
          cases token with
          | none =>
            rw [runTurn_of_end hflush hexit hread] at h
            cases h
          | some t =>
            have hturn : Turn s t w := ⟨v, hflush, hexit, hread⟩
            rw [runTurn_of_token hflush hexit hread] at h
            obtain hfailed | ⟨_, x, hok, hrest⟩ := bind_error_cases h
            · exact .inl ⟨t, w, .now hturn, hfailed⟩
            · obtain ⟨hstandard, hlt⟩ := within_of_token hd hflush hread
              have hx := (Session.Within.invariant _).evaluate t w ⟨hstandard, le_rfl⟩
              rw [hok] at hx
              obtain ⟨u, y, hevaluates, hfailed⟩ | hfails :=
                ih _ (hx.length_le.trans_lt hlt) ((hI.evaluate t).of_ok hok hw) hx.standard hrest
                  rfl
              · exact .inl ⟨u, y, .later hturn hok hevaluates, hfailed⟩
              · exact .inr hfails

theorem exists_evaluates_of_run_error (hs : s.Reliable) (h : run .none s = .error failure u) :
    ∃ t w, Evaluates s t w ∧ evaluate .none t w = .error failure u := by
  obtain hevaluates | ⟨v, hv, hfails⟩ := run_error_cases Session.Reliable.invariant hs hs.standard h
  · exact hevaluates
  · rcases hfails with hflush | hread
    · obtain ⟨_, x, hok, -⟩ := Succeeds.flush v hv
      rw [hok] at hflush
      cases hflush
    · obtain ⟨_, x, hok, -⟩ := Succeeds.nextToken v hv
      rw [hok] at hread
      cases hread

end Run

end Forth
