import Forth.Proofs.Session.Reachable

/-! # Definitions are atomic

A definition binds its name or changes no binding at all, and never touches the
stack or the output. Of several reasons to fail the reader's own comes first,
then the missing end, and then the first token that refers to nothing.
-/

namespace Forth

namespace Source

theorem Drafts.met {comments : Bool} {s u : Source} {d : Draft} (h : Drafts comments s d u)
    {failure : Failure} (hend : d.ending = .failed failure) : Met s failure u := by
  induction h with
  | failed hn =>
    cases hend
    exact met_of_nextToken hn
  | cutOff | closed => cases hend
  | commentFailed hn _ _ hline =>
    cases hend
    exact (moved_of_nextToken hn).met (met_of_restOfLine hline)
  | comment hn _ _ hline _ ih =>
    exact ((moved_of_nextToken hn).trans (moved_of_restOfLine hline)).met (ih hend)
  | token hn _ _ _ ih => exact (moved_of_nextToken hn).met (ih hend)

theorem met_draft {comments : Bool} {s : Source} {failure : Failure}
    (hend : (s.draft comments).1.ending = .failed failure) :
    Met s failure (s.draft comments).2 := by
  obtain ⟨failed, t, hn, hd⟩ | ⟨t, hn, hd⟩ | ⟨name, t, d, u, hn, hbody, hd⟩ :=
    draft_cases comments s
  · rw [hd] at hend ⊢
    cases hend
    exact met_of_nextToken hn
  · rw [hd] at hend
    cases hend
  · rw [hd] at hend ⊢
    exact (moved_of_nextToken hn).met (hbody.met hend)

theorem nextToken_of_draft_name {comments : Bool} {s : Source} {name : Token}
    (h : (s.draft comments).1.name = some name) : ∃ t, nextToken s = .ok (some name) t := by
  obtain ⟨failed, t, -, hd⟩ | ⟨t, -, hd⟩ | ⟨found, t, d, u, hn, -, hd⟩ := draft_cases comments s
  · rw [hd] at h
    cases h
  · rw [hd] at h
    cases h
  · rw [hd] at h
    cases h
    exact ⟨t, hn⟩

end Source

variable {κ σ : Type}

def Draft.Completes (d : Draft) (dictionary : Dictionary (Behavior κ)) : Prop :=
  d.ending = .closed ∧ ∀ t ∈ d.body, (dictionary.resolve t).isSome = true

/-- Why the definition that begins at the cursor of a session fails. -/
inductive Draft.Fails (d : Draft) (s : Session κ σ) : Failure → Prop
  | reading {reason : String} : d.ending = .failed { cause := .io reason } →
      s.source.unread.find? Item.isFault = some (.fault reason) →
      Fails d s { cause := .io reason }
  | truncated : d.ending = .cutOff →
      Fails d s { cause := .truncatedDefinition, location := s.current }
  | unknown {before after : List Token} {t : Token} : d.ending = .closed →
      d.body = before ++ t :: after → (∀ x ∈ before, (s.dictionary.resolve x).isSome = true) →
      s.dictionary.resolve t = none →
      Fails d s { cause := .unknownWord t.text, location := t.location }

theorem Draft.completes_of_failure? {d : Draft} {truncated : Failure}
    {dictionary : Dictionary (Behavior κ)} (h : d.failure? truncated dictionary = none) :
    d.Completes dictionary := by
  obtain ⟨hend, hknown⟩ := Option.or_eq_none_iff.mp h
  constructor
  · cases hd : d.ending with
    | closed => rfl
    | cutOff | failed =>
      rw [hd] at hend
      cases hend
  · intro t ht
    have hresolve := List.find?_eq_none.mp (Option.map_eq_none_iff.mp hknown) t ht
    simpa [Option.isSome_iff_ne_none] using hresolve

theorem Session.fails_of_failure? {s : Session κ σ} {failure : Failure}
    (h : s.draft.1.failure? s.truncated s.dictionary = some failure) :
    s.draft.1.Fails s failure := by
  rw [Draft.failure?] at h
  cases hend : s.draft.1.ending with
  | closed =>
    rw [hend] at h
    obtain ⟨t, ht, rfl⟩ := Option.map_eq_some_iff.mp h
    obtain ⟨hnone, before, after, hbody, hbefore⟩ := List.find?_eq_some_iff_append.mp ht
    refine .unknown hend hbody (fun x hx => ?_) (by simpa using hnone)
    simpa [Option.isSome_iff_ne_none] using hbefore x hx
  | cutOff =>
    rw [hend] at h
    cases h
    exact .truncated hend
  | failed failed =>
    rw [hend] at h
    cases h
    obtain ⟨reason, hfirst, rfl⟩ := (Source.met_draft hend).find?_isFault
    exact .reading hend hfirst

theorem Draft.Fails.failure?_eq {d : Draft} {s : Session κ σ} {failure : Failure}
    (h : d.Fails s failure) : d.failure? s.truncated s.dictionary = some failure := by
  rw [failure?]
  cases h with
  | reading hend _ =>
    rw [hend]
    rfl
  | truncated hend =>
    rw [hend]
    rfl
  | @unknown before after t hend hbody hbefore ht =>
    have hfirst : d.unknown? s.dictionary = some t := by
      refine List.find?_eq_some_iff_append.mpr ⟨by simp [ht], before, after, hbody, fun x hx => ?_⟩
      simpa [Option.isSome_iff_ne_none] using hbefore x hx
    rw [hend, hfirst]
    rfl

theorem fails_of_define_error {host : Host κ σ} {s u : Session κ σ} {failure : Failure}
    (hd : s.dictionary.Standard) (h : define host s = .error failure u) :
    s.draft.1.Fails s failure ∧ u = s.drafted := by
  obtain ⟨failed, hfailed, hdefine⟩ | ⟨name, -, -, hdefine⟩ := define_of_standard host hd
  · rw [hdefine] at h
    cases h
    exact ⟨Session.fails_of_failure? hfailed, rfl⟩
  · rw [hdefine] at h
    cases h

theorem define_of_fails (host : Host κ σ) {s : Session κ σ} {failure : Failure}
    (hd : s.dictionary.Standard) (h : s.draft.1.Fails s failure) :
    define host s = .error failure s.drafted := by
  have hfailure := h.failure?_eq
  obtain ⟨failed, hfailed, hdefine⟩ | ⟨name, hnone, -, -⟩ := define_of_standard host hd
  · rw [hfailure] at hfailed
    cases hfailed
    exact hdefine
  · rw [hfailure] at hnone
    cases hnone

/-- A definition is completed and binds its name to a new word, or it fails and binds nothing. -/
theorem define_atomic {s : Session Empty σ} (hs : Reachable s) :
    ((define .none s).state.stack = s.stack ∧ (define .none s).state.exiting = s.exiting ∧
      (define .none s).state.output = s.output) ∧
    ((∃ name w after, (define .none s).answer = .ok () ∧ s.draft.1.Completes s.dictionary ∧
        Source.nextToken s.source = .ok (some name) after ∧
        (define .none s).state.dictionary.find? name.text = some w ∧
        w.name = name.text ∧ w.immediate = false ∧ w.kind = .scripted ∧
        w.location = some name.location ∧
        ∀ other, other ≠ name.text →
          (define .none s).state.dictionary.find? other = s.dictionary.find? other) ∨
      ∃ failure, (define .none s).answer = .error failure ∧ s.draft.1.Fails s failure ∧
        (define .none s).state.dictionary = s.dictionary) := by
  obtain ⟨failure, hfailure, hdefine⟩ | ⟨name, hnone, hname, hdefine⟩ :=
    define_of_standard .none hs.standard
  · rw [hdefine]
    refine ⟨⟨rfl, rfl, rfl⟩, .inr ⟨failure, rfl, ?_, rfl⟩⟩
    exact Session.fails_of_failure? hfailure
  · obtain ⟨after, hafter⟩ := Source.nextToken_of_draft_name hname
    rw [hdefine]
    refine ⟨⟨rfl, rfl, rfl⟩, .inl ⟨name, s.draft.1.word s.dictionary name, after, rfl, ?_⟩⟩
    refine ⟨Draft.completes_of_failure? hnone, hafter, ?_, rfl, rfl, rfl, rfl, ?_⟩
    · exact Dictionary.find?_define_self s.dictionary (s.draft.1.word s.dictionary name)
    · intro other hother
      exact Dictionary.find?_define_of_ne _ _ hother

/-- Here the reader fails in the text of a definition, behind a word that nothing is known of. The
name keeps the meaning that an earlier definition gave it. -/
theorem define_atomic_failing :
    let source : Source :=
      ⟨.start "", "f dup ; f bogus ".toList.map .char ++ .fault "lost" :: "1 ; f".toList.map .char, 0⟩
    let start : Session Empty Unit :=
      { dictionary := Dictionary.empty.definePrimitives, source, hostState := () }
    let s := (define .none start).state
    Reachable s ∧ (s.dictionary.find? "f").isSome = true ∧
      s.draft.1.name.map Token.text = some "f" ∧ s.draft.1.body.map Token.text = ["bogus"] ∧
      (s.dictionary.find? "bogus").isSome = false ∧
      s.draft.1.Fails s { cause := .io "lost" } ∧
      (define .none s).state.dictionary.find? "f" = s.dictionary.find? "f" := by
  intro source start s
  have hs : Reachable s := .ran .colon ":" (.start source ())
  have hname : s.draft.1.name.map Token.text = some "f" := by decide +kernel
  have hbody : s.draft.1.body.map Token.text = ["bogus"] := by decide +kernel
  have hlost : (define .none s).answer = .error { cause := .io "lost" } := by decide +kernel
  refine ⟨hs, by decide +kernel, hname, hbody, by decide +kernel, ?_⟩
  obtain ⟨-, ⟨_, _, _, hok, -⟩ | ⟨failure, hanswer, hfails, hsame⟩⟩ := define_atomic hs
  · rw [hlost] at hok
    cases hok
  · rw [hlost] at hanswer
    cases hanswer
    exact ⟨hfails, congrArg (Dictionary.find? · "f") hsame⟩

end Forth
