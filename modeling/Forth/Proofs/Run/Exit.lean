import Forth.Proofs.Machine.Extension
import Forth.Proofs.Source.Runs

/-! # What `bye` ends

After a `bye` nothing happens but the last flush: the rest of its source is not
read, and no word that it was invoked from goes on. When another source was run
in place of the session's own, the request is forgotten with it. A session that
was asked for its end while it ran its own source keeps the request, and answers
with it to the next source.
-/

namespace Forth

open Session Machine

variable {σ : Type}

section Ended

variable {s v : Session Empty σ} {source : Source} {ending : Ending}

theorem runSource_of_run_ok (h : run .none (s.entering source) = .ok ending v) :
    runSource .none source s = .ok ending { v with source := s.source, exiting := false } := by
  have hrun : run .none { s with source } = .ok ending v := h
  rw [runSource, hrun]

theorem run_of_answer (h : (run .none s).answer = .ok ending) :
    run .none s = .ok ending (run .none s).state := by
  cases hr : run .none s with
  | ok other t =>
    rw [hr] at h
    cases h
    rfl
  | error failure t =>
    rw [hr] at h
    cases h

/-- Only where the end was asked for is a run terminated. -/
theorem exiting_of_runWithin_terminated {bound : Nat}
    (h : runWithin .none bound s = .ok .terminated v) : v.exiting = true := by
  induction bound generalizing s with
  | zero => cases h
  | succ bound ih =>
    obtain ⟨_, t, -, h⟩ := bind_ok_cases h
    rw [get_bind_apply] at h
    split at h
    · cases h
      assumption
    · obtain ⟨token, w, -, h⟩ := bind_ok_cases h
      cases token with
      | none => cases h
      | some token =>
        obtain ⟨_, x, -, h⟩ := bind_ok_cases h
        exact ih h

end Ended

section Append

variable {s : Session Empty σ}

/-- What a text leads to that goes on behind the `bye` of another one. -/
structure IgnoresRest (s : Session Empty σ) (path text more : String) : Prop where
  answer : (processText .none path (text ++ "\n" ++ more) s).answer = .ok .terminated
  /-- The session that is left is the same in every part. -/
  state : (processText .none path (text ++ "\n" ++ more) s).state =
    (processText .none path text s).state
  /-- Every step is that of the run without the rest, so that no token of it is evaluated. -/
  lockstep : ∀ n, ∃ source,
    step^[n] (.turn (s.entering (.ofText path (text ++ "\n" ++ more)))) =
      (step^[n] (.turn (s.entering (.ofText path text)))).withSource source
  /-- Someone has asked for the end before the run, or a `bye` in it does. -/
  request : s.exiting = true ∨ ∃ i name frames v,
    step^[i] (.turn (s.entering (.ofText path (text ++ "\n" ++ more)))) =
      .invoke (.primitive .bye) name frames v
  /-- A `bye` leaves every compiled word at once, and nothing more is read. -/
  unwinds : ∀ i name frames v,
    step^[i] (.turn (s.entering (.ofText path (text ++ "\n" ++ more)))) =
      .invoke (.primitive .bye) name frames v →
    Unwinds frames v (step^[i] (.turn (s.entering (.ofText path (text ++ "\n" ++ more)))))

theorem unwinds_of_iterate (hd : s.dictionary.Standard) {i : Nat} {name : String}
    {frames : List Frame} {v : Session Empty σ}
    (hi : step^[i] (.turn s) = .invoke (.primitive .bye) name frames v) :
    Unwinds frames v (step^[i] (.turn s)) := by
  have hnested := nested_iterate (m := .turn s) hd (.turn s) i
  rw [hi] at hnested ⊢
  exact unwinds_bye hnested.isReplay_of_bye name v

theorem exists_bye_of_terminated (hd : s.dictionary.Standard) (hexit : s.exiting = false)
    (h : (run .none s).answer = .ok .terminated) :
    ∃ i name frames v, step^[i] (.turn s) = .invoke (.primitive .bye) name frames v := by
  have hrun := run_of_answer h
  obtain ⟨n, hn⟩ := exists_ended hd
  have hsession : (step^[n] (.turn s)).session.exiting = true := by
    rw [hn, hrun]
    exact exiting_of_runWithin_terminated hrun
  obtain ⟨i, name, frames, v, -, hbye⟩ := exists_bye_of_exiting (m := .turn s) hexit hsession
  exact ⟨i, name, frames, v, hbye⟩

/-- Once a text ends with `bye`, nothing that stands behind it matters. -/
theorem ignoresRest_of_terminated (hs : Reachable s) {path text : String}
    (h : (processText .none path text s).answer = .ok .terminated) (more : String) :
    IgnoresRest s path text more := by
  let short := s.entering (.ofText path text)
  let long := s.entering (.ofText path (text ++ "\n" ++ more))
  have hd : s.dictionary.Standard := hs.standard
  have hanswer : (run .none short).answer = .ok .terminated := (answer_runSource _ s).symm.trans h
  have hrun := run_of_answer hanswer
  obtain ⟨n, hn⟩ := exists_ended (s := short) hd
  have hahead : Machine.Ahead more.toList (.turn short) (.turn long) :=
    ⟨.ofText path (text ++ "\n" ++ more), .ofText path text more, rfl⟩
  have hlockstep := hahead.iterate_of_terminated hd (.turn short) (hrun ▸ hn)
  -- both machines end, and they end in the same step
  obtain ⟨source, -, hsame⟩ := hlockstep n
  obtain ⟨m, hm⟩ := exists_ended (s := long) hd
  rw [hn, hrun] at hsame
  have hlong : run .none long = .ok .terminated ((run .none short).state.entering source) :=
    ended_unique hm hsame
  have hshortText := runSource_of_run_ok hrun
  have hlongText := runSource_of_run_ok hlong
  constructor
  · exact congrArg EStateM.Result.answer hlongText
  · exact (congrArg EStateM.Result.state hlongText).trans
      (congrArg EStateM.Result.state hshortText).symm
  · intro i
    obtain ⟨source, -, hi⟩ := hlockstep i
    exact ⟨source, hi⟩
  · cases hexit : s.exiting with
    | true => exact .inl rfl
    | false =>
      exact .inr (exists_bye_of_terminated hd hexit (congrArg EStateM.Result.answer hlong))
  · intro i name frames v hi
    exact unwinds_of_iterate (s := long) hd hi

/-- Here `bye` stands in a word that another one invokes, and both have steps behind it. -/
theorem ignoresRest_nested :
    let s : Session Empty Unit :=
      { dictionary := Dictionary.empty.definePrimitives, source := .ofText "" "", hostState := () }
    let text := ": stop bye cr ; : outer stop cr ; outer cr"
    Reachable s ∧ (processText .none "" text s).answer = .ok .terminated ∧
      IgnoresRest s "" text "dup outer" := by
  intro s text
  have hs : Reachable s := .start _ ()
  have h : (processText .none "" text s).answer = .ok .terminated := by decide +kernel
  exact ⟨hs, h, ignoresRest_of_terminated hs h "dup outer"⟩

end Append

section Source

variable {s v : Session Empty σ} {path text : String}

/-- How a session runs a text that has nothing to do with an end asked for before. -/
structure OwnExit (s : Session Empty σ) (path text : String) : Prop where
  /-- The text is evaluated from its first token on. -/
  begins : ∀ t tokens v, tokenize path text = .ok (t :: tokens) → flush s = .ok () v →
    ∃ w, Turn (s.entering (.ofText path text)) t w ∧
      run .none (s.entering (.ofText path text)) =
        (do evaluate .none t; run .none : SessionM Empty σ Ending) w
  /-- It is terminated only by a `bye` that is invoked while it runs. -/
  terminated : (processText .none path text s).answer = .ok .terminated →
    ∃ i name frames v, step^[i] (.turn (s.entering (.ofText path text))) =
      .invoke (.primitive .bye) name frames v
  /-- The end that it asks for is forgotten with it. -/
  forgets : (processText .none path text s).state.exiting = false

theorem exiting_runSource (source : Source) (s : Session Empty σ) :
    (runSource .none source s).state.exiting = false := by
  rw [runSource]
  cases run .none { s with source } <;> rfl

theorem Source.nextToken_of_tokenize {t : Token} {tokens : List Token}
    (h : tokenize path text = .ok (t :: tokens)) :
    ∃ u, nextToken (ofText path text) = .ok (some t) u := by
  rw [tokenize] at h
  cases hall : Source.tokens (ofText path text) with
  | error failure u =>
    rw [hall] at h
    cases h
  | ok found u =>
    rw [hall] at h
    cases h
    have hwithin : tokensWithin ((ofText path text).unread.length + 1) (ofText path text) =
        .ok (t :: tokens) u := hall
    obtain ⟨token, v, hread, hrest⟩ := bind_ok_cases hwithin
    cases token with
    | none => cases hrest
    | some token =>
      obtain ⟨rest, w, -, hrest⟩ := bind_ok_cases hrest
      cases hrest
      exact ⟨v, hread⟩

/-- Once the end is asked for, a run flushes its output and stops. -/
theorem run_of_exiting (hd : s.dictionary.Standard) (hexit : s.exiting = true) :
    run .none s = (do flush; return .terminated : SessionM Empty σ Ending) s := by
  obtain ⟨n, hn⟩ := exists_ended hd
  have hstep : step^[1] (.turn s) = _ := takeTurn_eq_of_exiting hexit
  exact ended_unique hn hstep

theorem flush_entering_of_ok (hflush : flush s = .ok () v) (source : Source) :
    flush (s.entering source) = .ok () (v.entering source) := by
  rw [flush_entering, hflush]
  rfl

theorem answer_processText_of_flush_error {failure : Failure} (hs : Reachable s)
    (hflush : flush s = .error failure v) (path text : String) :
    (processText .none path text s).answer = .error failure := by
  let started := s.entering (.ofText path text)
  have hd : started.dictionary.Standard := hs.standard
  have hfails : flush started = .error failure (v.entering (.ofText path text)) := by
    rw [flush_entering, hflush]
    rfl
  have hrun := (run_eq_runTurn hd).trans (runTurn_of_flush_error hfails)
  exact (answer_runSource _ s).trans (congrArg EStateM.Result.answer hrun)

/-- A session that keeps the request of an end answers with it to the text. -/
theorem not_ownExit_of_exiting (hs : Reachable s) (hexit : s.exiting = true)
    (hflush : flush s = .ok () v) (path text : String) : ¬OwnExit s path text := by
  intro h
  let started := s.entering (.ofText path text)
  have hd : started.dictionary.Standard := hs.standard
  have hstarted : started.exiting = true := hexit
  have hrun := (run_of_exiting hd hstarted).trans (bind_of_ok (flush_entering_of_ok hflush _))
  have hanswer : (processText .none path text s).answer = .ok .terminated :=
    (answer_runSource _ s).trans (congrArg EStateM.Result.answer hrun)
  obtain ⟨i, name, frames, w, hi⟩ := h.terminated hanswer
  cases i with
  | zero => cases hi
  | succ i =>
    have hended : step (.turn started) = .ended _ := takeTurn_eq_of_exiting hstarted
    rw [Function.iterate_succ_apply, hended, iterate_ended] at hi
    cases hi

theorem ownExit_of_not_exiting (hs : Reachable s) (hexit : s.exiting = false)
    (path text : String) : OwnExit s path text where
  begins := by
    intro t tokens v htokens hflush
    obtain ⟨u, hu⟩ := Source.nextToken_of_tokenize htokens
    have hv : v.exiting = false := by
      have hstate : (flush s).state.exiting = s.exiting := exiting_steps.flush s
      rw [hflush] at hstate
      exact hstate.trans hexit
    have hturn : Turn (s.entering (.ofText path text)) t { v with source := u } :=
      ⟨v.entering (.ofText path text), flush_entering_of_ok hflush _, hv, onSource_of_ok hu⟩
    exact ⟨_, hturn, hturn.run_eq hs.standard⟩
  terminated := by
    intro h
    exact exists_bye_of_terminated hs.standard hexit ((answer_runSource _ s).symm.trans h)
  forgets := exiting_runSource (.ofText path text) s

/-- What an earlier source left behind does not matter to the text, exactly if nobody has asked
for the end, or the output fails before anything is read. -/
theorem ownExit_iff (hs : Reachable s) (path text : String) :
    OwnExit s path text ↔ s.exiting = false ∨ ∃ failure v, flush s = .error failure v := by
  constructor
  · intro h
    cases hexit : s.exiting with
    | false => exact .inl rfl
    | true =>
      cases hflush : flush s with
      | ok _ v => exact absurd h (not_ownExit_of_exiting hs hexit hflush path text)
      | error failure v => exact .inr ⟨failure, v, rfl⟩
  · rintro (hexit | ⟨failure, v, hflush⟩)
    · exact ownExit_of_not_exiting hs hexit path text
    · constructor
      · intro t tokens w _ hok
        rw [hflush] at hok
        cases hok
      · intro h
        rw [answer_processText_of_flush_error hs hflush] at h
        cases h
      · exact exiting_runSource (.ofText path text) s

/-- After a text that ends with `bye`, the session runs the next one from its first token. -/
theorem ownExit_iff_after_bye :
    let s : Session Empty Unit :=
      { dictionary := Dictionary.empty.definePrimitives, source := .ofText "" "", hostState := () }
    let t := (processText .none "" "bye" s).state
    Reachable t ∧
      (OwnExit t "" "dup bye" ↔ t.exiting = false ∨ ∃ failure v, flush t = .error failure v) ∧
      t.exiting = false := by
  intro s t
  have ht : Reachable t := (Reachable.start _ ()).processText "" "bye"
  exact ⟨ht, ownExit_iff ht "" "dup bye", exiting_runSource (.ofText "" "bye") s⟩

/-- A session that read `bye` in its own source does not look at the text that is run next. -/
theorem not_ownExit_after_run :
    let s : Session Empty Unit :=
      { dictionary := Dictionary.empty.definePrimitives, source := .ofText "<input>" "bye",
        hostState := () }
    let t := (run .none s).state
    (run .none s).answer = .ok .terminated ∧
      tokenize "<test>" "1" = .ok [{ text := "1", location := ⟨"<test>", 1, 1⟩ }] ∧
      (processText .none "<test>" "1" t).answer = .ok .terminated ∧
      (processText .none "<test>" "1" t).state.stack.length = 0 ∧
      ¬OwnExit t "<test>" "1" := by
  intro s t
  have hs : s.Reliable :=
    ⟨(Reachable.start s.source ()).standard, Source.faultless_ofText _ _, rfl, nofun⟩
  have ht : t.Reliable := Session.Reliable.invariant.run s hs
  have hreachable : Reachable t := (Reachable.start s.source ()).run
  have hexit : t.exiting = true := by decide +kernel
  refine ⟨by decide +kernel, by decide +kernel, by decide +kernel, by decide +kernel, ?_⟩
  exact not_ownExit_of_exiting hreachable hexit (flush_of_reliable ht.output) _ _

end Source

end Forth
