import Forth.Proofs.Behavior.Nesting
import Forth.Proofs.Machine.Reading

/-! # How the machine reads a definition

A definition comes to its answer, which is that of `:`. What is invoked on the
way are comments. Each token of the text takes at most two steps.
-/

namespace Forth

open Session

variable {σ : Type}

namespace Machine

/-- The behavior is being invoked and its answer goes to these frames. -/
structure Inside (b : Behavior Empty) (frames : List Frame) (m : Machine σ) : Prop where
  above : ∃ more, more ≠ [] ∧ m.frames = more ++ frames
  invokes : ∀ c name rest s, m = invoke c name rest s → b.Invokes c

section Inside

variable {b : Behavior Empty} {frames : List Frame} {frame : Frame}

theorem inside_answer (b : Behavior Empty) (a : Except Failure Unit) (frame : Frame)
    (frames : List Frame) (s : Session Empty σ) : Inside b frames (answer a (frame :: frames) s) :=
  ⟨⟨[frame], List.cons_ne_nil _ _, rfl⟩, nofun⟩

theorem comes_of_step {a : Except Failure Unit} {s : Session Empty σ} {m : Machine σ}
    (h : step (answer a (frame :: frames) s) = m) :
    Comes (Inside b frames) 1 (answer a (frame :: frames) s) m :=
  .cons (inside_answer ..) (h ▸ .refl _)

theorem inside_invoke {c : Behavior Empty} (h : b.Invokes c) (name : String) (frame : Frame)
    (frames : List Frame) (s : Session Empty σ) :
    Inside b frames (invoke c name (frame :: frames) s) := by
  refine ⟨⟨[frame], List.cons_ne_nil _ _, rfl⟩, ?_⟩
  rintro _ _ _ _ ⟨⟩
  exact h

/-- What happens inside of a step happens inside of the replay. -/
theorem Inside.of_step {steps : List (Step Empty)} {step : Step Empty} {m : Machine σ}
    (hstep : step ∈ steps) (h : Inside step.1 (frame :: frames) m) :
    Inside (.compiled steps) frames m := by
  obtain ⟨more, -, hframes⟩ := h.above
  refine ⟨⟨more ++ [frame], by simp, by simpa using hframes⟩, ?_⟩
  intro c name rest s hm
  exact .deeper hstep (h.invokes c name rest s hm)

end Inside

section Read

variable {truncated failure : Failure} {name t : Token} {steps : List (Step Empty)}
  {frames : List Frame} {s : Session Empty σ} {u : Source}
  {found : Token → Session Empty σ → Machine σ}

theorem read_of_error (h : Source.nextToken s.source = .error failure u) :
    read truncated frames s found = answer (.error failure) frames { s with source := u } := by
  rw [read, nextToken, onSource_of_error h]

theorem read_of_none (h : Source.nextToken s.source = .ok none u) :
    read truncated frames s found = answer (.error truncated) frames { s with source := u } := by
  rw [read, nextToken, onSource_of_ok h]

theorem read_of_token (h : Source.nextToken s.source = .ok (some t) u) :
    read truncated frames s found = found t { s with source := u } := by
  rw [read, nextToken, onSource_of_ok h]

theorem step_skip_of_not_comment (hn : Source.nextToken s.source = .ok (some t) u)
    (hd : s.dictionary.Standard) (ht : t.text ≠ endOfDefinition)
    (hc : ¬(s.dictionary.bindsComment = true ∧ t.text = Dictionary.commentName)) :
    step (answer (.ok ()) (.skip truncated failure :: frames) s) =
      answer (.ok ()) (.skip truncated failure :: frames) { s with source := u } := by
  refine (read_of_token hn).trans ?_
  rw [skip, if_neg ht]
  cases hw : s.dictionary.resolve t with
  | none => rfl
  | some w => simp only [immediate_eq_false hd hc hw, Bool.false_eq_true, if_false]

theorem step_skip_of_comment (hn : Source.nextToken s.source = .ok (some t) u)
    (hd : s.dictionary.Standard) (ht : t.text ≠ endOfDefinition)
    (hc : s.dictionary.bindsComment = true ∧ t.text = Dictionary.commentName) :
    ∃ word, step (answer (.ok ()) (.skip truncated failure :: frames) s) =
      invoke (.primitive .comment) word (.skip truncated failure :: frames)
        { s with source := u, current := some t.location } := by
  obtain ⟨w, hw, himm, hb⟩ := exists_comment hd hc
  refine ⟨w.name, (read_of_token hn).trans ?_⟩
  simp only [skip, if_neg ht, hw, himm, if_true, execute, hb]

theorem step_compile_of_comment (hn : Source.nextToken s.source = .ok (some t) u)
    (hd : s.dictionary.Standard) (ht : t.text ≠ endOfDefinition)
    (hc : s.dictionary.bindsComment = true ∧ t.text = Dictionary.commentName) :
    ∃ word, step (answer (.ok ()) (.compile truncated name steps :: frames) s) =
      invoke (.primitive .comment) word (.compile truncated name steps :: frames)
        { s with source := u, current := some t.location } := by
  obtain ⟨w, hw, himm, hb⟩ := exists_comment hd hc
  refine ⟨w.name, (read_of_token hn).trans ?_⟩
  simp only [compile, if_neg ht, hw, himm, if_true, execute, hb]

theorem step_compile_of_resolve {w : Word (Behavior Empty)}
    (hn : Source.nextToken s.source = .ok (some t) u) (hd : s.dictionary.Standard)
    (ht : t.text ≠ endOfDefinition)
    (hc : ¬(s.dictionary.bindsComment = true ∧ t.text = Dictionary.commentName))
    (hw : s.dictionary.resolve t = some w) :
    step (answer (.ok ()) (.compile truncated name steps :: frames) s) =
      answer (.ok ()) (.compile truncated name (steps ++ [(w.behavior, w.name)]) :: frames)
        { s with source := u } := by
  refine (read_of_token hn).trans ?_
  simp only [compile, if_neg ht, hw, immediate_eq_false hd hc hw, Bool.false_eq_true, if_false]

theorem step_compile_of_unknown (hn : Source.nextToken s.source = .ok (some t) u)
    (ht : t.text ≠ endOfDefinition) (hw : s.dictionary.resolve t = none) :
    step (answer (.ok ()) (.compile truncated name steps :: frames) s) =
      answer (.error t.unknown) (.compile truncated name steps :: frames)
        { s with source := u } := by
  refine (read_of_token hn).trans ?_
  simp only [compile, if_neg ht, hw]

theorem fail_of_fatal (frame : Frame) (h : failure.isFatal = true) :
    fail failure frames s frame = answer (.error failure) frames s := by
  cases frame with
  | replay => rfl
  | compile | skip => exact if_pos h

/-- A comment takes two steps, and then the definition reads on. -/
theorem comment_comes {frame : Frame} {v : Session Empty σ} {word : String} {line : Option String}
    (hstep : step (answer (.ok ()) (frame :: frames) s) =
      invoke (.primitive .comment) word (frame :: frames) v)
    (h : Source.restOfLine v.source = .ok line u) :
    Comes (Inside (.primitive .colon) frames) 2 (answer (.ok ()) (frame :: frames) s)
      (answer (.ok ()) (frame :: frames) { v with source := u }) := by
  have hrun : Primitive.comment.run (pure ()) word v = .ok () { v with source := u } :=
    bind_of_ok (onSource_of_ok h)
  have hcomment : step (invoke (.primitive .comment) word (frame :: frames) v) =
      answer (.ok ()) (frame :: frames) { v with source := u } :=
    congrArg (answering (frame :: frames)) hrun
  refine .cons (inside_answer ..) ?_
  rw [hstep]
  exact .cons (inside_invoke .comment ..) (hcomment ▸ .refl _)

theorem comment_fails {frame : Frame} {v : Session Empty σ} {word : String}
    (hstep : step (answer (.ok ()) (frame :: frames) s) =
      invoke (.primitive .comment) word (frame :: frames) v)
    (h : Source.restOfLine v.source = .error failure u) :
    Comes (Inside (.primitive .colon) frames) 3 (answer (.ok ()) (frame :: frames) s)
      (answer (.error failure) frames { v with source := u }) := by
  have hrun : Primitive.comment.run (pure ()) word v = .error failure { v with source := u } :=
    bind_of_error (onSource_of_error h)
  have hcomment : step (invoke (.primitive .comment) word (frame :: frames) v) =
      answer (.error failure) (frame :: frames) { v with source := u } :=
    congrArg (answering (frame :: frames)) hrun
  have hfail : step (answer (.error failure) (frame :: frames) { v with source := u }) =
      answer (.error failure) frames { v with source := u } :=
    fail_of_fatal frame (Source.met_of_restOfLine h).isFatal
  refine .cons (inside_answer ..) ?_
  rw [hstep]
  refine .cons (inside_invoke .comment ..) ?_
  rw [hcomment]
  exact comes_of_step hfail

end Read

section Draft

variable {comments : Bool} {source u : Source} {d : Draft} {s : Session Empty σ}

/-- What the machine comes to when the body is thrown away. -/
theorem skip_comes (truncated failure : Failure) (frames : List Frame)
    (h : source.Drafts comments d u) (hs : s.source = source) (hd : s.dictionary.Standard)
    (hc : s.dictionary.bindsComment = comments) :
    ∃ n, Comes (Inside (.primitive .colon) frames) n
        (answer (.ok ()) (.skip truncated failure :: frames) s)
        (answer (.error ((d.ending.failure? truncated).getD failure)) frames (s.afterDraft d u)) ∧
      n + 2 * u.unreadChars ≤ 1 + 2 * source.unreadChars := by
  induction h generalizing s with
  | failed hn =>
    have hstep : step (answer (.ok ()) (.skip truncated failure :: frames) s) = _ :=
      read_of_error (hs ▸ hn)
    have hle := Source.unreadChars_le (Source.met_of_nextToken hn).suffix
    exact ⟨1, comes_of_step hstep, by omega⟩
  | cutOff hn =>
    have hstep : step (answer (.ok ()) (.skip truncated failure :: frames) s) = _ :=
      read_of_none (hs ▸ hn)
    have hle := Source.unreadChars_le (Source.moved_of_nextToken hn).suffix
    exact ⟨1, comes_of_step hstep, by omega⟩
  | closed hn ht =>
    have hstep : step (answer (.ok ()) (.skip truncated failure :: frames) s) = _ :=
      (read_of_token (hs ▸ hn)).trans (if_pos ht)
    have hle := Source.unreadChars_le (Source.moved_of_nextToken hn).suffix
    exact ⟨1, comes_of_step hstep, by omega⟩
  | @commentFailed _ t _ token _ hn ht hcomment hline =>
    obtain ⟨word, hstep⟩ := step_skip_of_comment (hs ▸ hn) hd ht (hc ▸ hcomment)
    have hlt := Source.unreadChars_lt_of_nextToken hn
    have hle := Source.unreadChars_le (Source.met_of_restOfLine hline).suffix
    exact ⟨3, comment_fails hstep hline, by omega⟩
  | @comment _ t v _ token _ _ hn ht hcomment hline _ ih =>
    obtain ⟨word, hstep⟩ := step_skip_of_comment (hs ▸ hn) hd ht (hc ▸ hcomment)
    have hlt := Source.unreadChars_lt_of_nextToken hn
    have hle := Source.unreadChars_le (Source.moved_of_restOfLine hline).suffix
    obtain ⟨n, hrest, hn'⟩ :=
      ih (s := { s with source := v, current := some token.location }) rfl hd hc
    exact ⟨2 + n, (comment_comes hstep hline).trans hrest, by omega⟩
  | @token _ t _ token _ hn ht hcomment _ ih =>
    have hstep : step (answer (.ok ()) (.skip truncated failure :: frames) s) = _ :=
      step_skip_of_not_comment (hs ▸ hn) hd ht (hc ▸ hcomment)
    have hlt := Source.unreadChars_lt_of_nextToken hn
    obtain ⟨n, hrest, hn'⟩ := ih (s := { s with source := t }) rfl hd hc
    exact ⟨1 + n, (comes_of_step hstep).trans hrest, by omega⟩

/-- What a definition comes to once its body is read. -/
def close (truncated : Failure) (name : Token) (steps : List (Step Empty)) (d : Draft) (u : Source)
    (s : Session Empty σ) : EStateM.Result Failure (Session Empty σ) Unit :=
  match d.failure? truncated s.dictionary with
  | some failure => .error failure (s.afterDraft d u)
  | none =>
    install name.location name.text (steps ++ d.body.filterMap s.dictionary.stepOf?)
      (s.afterDraft d u)

theorem close_of_failure {truncated failure : Failure} (name : Token) (steps : List (Step Empty))
    (h : d.failure? truncated s.dictionary = some failure) :
    close truncated name steps d u s = .error failure (s.afterDraft d u) := by
  rw [close, h]

theorem close_of_success {truncated : Failure} (name : Token) (steps : List (Step Empty))
    (h : d.failure? truncated s.dictionary = none) :
    close truncated name steps d u s =
      install name.location name.text (steps ++ d.body.filterMap s.dictionary.stepOf?)
        (s.afterDraft d u) := by
  rw [close, h]

theorem close_of_resolve {truncated : Failure} {t : Token} {w : Word (Behavior Empty)}
    {source : Source} (name : Token) (steps : List (Step Empty))
    (h : s.dictionary.resolve t = some w) :
    close truncated name (steps ++ [(w.behavior, w.name)]) d u { s with source } =
      close truncated name steps { d with body := t :: d.body } u s := by
  rw [close, close, Draft.failure?_token_of_resolve h,
    List.filterMap_cons_some (Dictionary.stepOf?_of_resolve h), List.append_assoc]
  rfl

theorem source_close (truncated : Failure) (name : Token) (steps : List (Step Empty)) (d : Draft)
    (u : Source) (s : Session Empty σ) : (close truncated name steps d u s).state.source = u := by
  rw [close]
  cases d.failure? truncated s.dictionary <;> rfl

/-- What the machine comes to when the body is compiled. -/
theorem compile_comes (truncated : Failure) (name : Token) (steps : List (Step Empty))
    (frames : List Frame) (h : source.Drafts comments d u) (hs : s.source = source)
    (hd : s.dictionary.Standard) (hc : s.dictionary.bindsComment = comments) :
    ∃ n, Comes (Inside (.primitive .colon) frames) n
        (answer (.ok ()) (.compile truncated name steps :: frames) s)
        (answering frames (close truncated name steps d u s)) ∧
      n + 2 * u.unreadChars ≤ 1 + 2 * source.unreadChars := by
  induction h generalizing s steps with
  | failed hn =>
    have hstep : step (answer (.ok ()) (.compile truncated name steps :: frames) s) = _ :=
      read_of_error (hs ▸ hn)
    have hle := Source.unreadChars_le (Source.met_of_nextToken hn).suffix
    exact ⟨1, comes_of_step hstep, by omega⟩
  | cutOff hn =>
    have hstep : step (answer (.ok ()) (.compile truncated name steps :: frames) s) = _ :=
      read_of_none (hs ▸ hn)
    have hle := Source.unreadChars_le (Source.moved_of_nextToken hn).suffix
    exact ⟨1, comes_of_step hstep, by omega⟩
  | closed hn ht =>
    have hstep : step (answer (.ok ()) (.compile truncated name steps :: frames) s) = _ :=
      (read_of_token (hs ▸ hn)).trans (if_pos ht)
    have hle := Source.unreadChars_le (Source.moved_of_nextToken hn).suffix
    rw [close_of_success name steps rfl, List.filterMap_nil, List.append_nil]
    exact ⟨1, comes_of_step hstep, by omega⟩
  | @commentFailed _ t _ token _ hn ht hcomment hline =>
    obtain ⟨word, hstep⟩ := step_compile_of_comment (hs ▸ hn) hd ht (hc ▸ hcomment)
    have hlt := Source.unreadChars_lt_of_nextToken hn
    have hle := Source.unreadChars_le (Source.met_of_restOfLine hline).suffix
    exact ⟨3, comment_fails hstep hline, by omega⟩
  | @comment _ t v _ token _ _ hn ht hcomment hline _ ih =>
    obtain ⟨word, hstep⟩ := step_compile_of_comment (hs ▸ hn) hd ht (hc ▸ hcomment)
    have hlt := Source.unreadChars_lt_of_nextToken hn
    have hle := Source.unreadChars_le (Source.moved_of_restOfLine hline).suffix
    obtain ⟨n, hrest, hn'⟩ :=
      ih steps (s := { s with source := v, current := some token.location }) rfl hd hc
    exact ⟨2 + n, (comment_comes hstep hline).trans hrest, by omega⟩
  | @token _ t v token d hn ht hcomment hrest ih =>
    have hlt := Source.unreadChars_lt_of_nextToken hn
    cases hw : s.dictionary.resolve token with
    | some w =>
      have hstep : step (answer (.ok ()) (.compile truncated name steps :: frames) s) = _ :=
        step_compile_of_resolve (hs ▸ hn) hd ht (hc ▸ hcomment) hw
      obtain ⟨n, hrest, hn'⟩ :=
        ih (steps ++ [(w.behavior, w.name)]) (s := { s with source := t }) rfl hd hc
      rw [close_of_resolve name steps hw] at hrest
      exact ⟨1 + n, (comes_of_step hstep).trans hrest, by omega⟩
    | none =>
      -- the rest of the body is thrown away
      have hstep : step (answer (.ok ()) (.compile truncated name steps :: frames) s) = _ :=
        step_compile_of_unknown (hs ▸ hn) ht hw
      obtain ⟨n, hskip, hn'⟩ :=
        skip_comes truncated token.unknown frames hrest (s := { s with source := t }) rfl hd hc
      rw [close_of_failure name steps (Draft.failure?_token_of_unknown hw)]
      exact ⟨1 + (1 + n), (comes_of_step hstep).trans ((comes_of_step rfl).trans hskip), by omega⟩

theorem define_of_name {name : Token} {t : Source}
    (hn : Source.nextToken s.source = .ok (some name) t) (hd : s.dictionary.Standard)
    (h : t.Drafts s.dictionary.bindsComment d u) :
    define .none s = close s.truncated name [] d u { s with source := t } := by
  let bound := s.source.unread.length + s.source.reserve
  have hcompile : compileBody (Word.executeWith (defineWithin .none bound) .none) s.truncated bound
      { s with source := t } =
        finish (d.failure? s.truncated s.dictionary) (d.body.filterMap s.dictionary.stepOf?)
          ({ s with source := t }.afterDraft d u) :=
    compileBody_of_drafts s.truncated h rfl hd rfl
      (Nat.le_add_right_of_le (Source.length_lt_of_nextToken hn).le)
  refine (define_eq .none s).trans ((bind_of_ok (onSource_of_ok hn)).trans ?_)
  cases hfail : d.failure? s.truncated s.dictionary with
  | some failure =>
    rw [hfail] at hcompile
    rw [close_of_failure (s := { s with source := t }) name [] hfail]
    exact bind_of_error hcompile
  | none =>
    rw [hfail] at hcompile
    rw [close_of_success (s := { s with source := t }) name [] hfail]
    exact bind_of_ok hcompile

theorem start_colon_comes (hd : s.dictionary.Standard) (word : String) (frames : List Frame) :
    ∃ n, Comes (Inside (.primitive .colon) frames) n (start word frames s (.primitive .colon))
        (answering frames (define .none s)) ∧
      n + 2 * (define .none s).state.source.unreadChars ≤ 1 + 2 * s.source.unreadChars := by
  obtain ⟨failed, t, hn, -⟩ | ⟨t, hn, -⟩ | ⟨name, t, d, u, hn, hbody, -⟩ :=
    Source.draft_cases s.dictionary.bindsComment s.source
  · have hstart : start word frames s (.primitive .colon) = _ := read_of_error hn
    have hdefine : define .none s = .error failed { s with source := t } :=
      (define_eq .none s).trans (bind_of_error (onSource_of_error hn))
    have hle := Source.unreadChars_le (Source.met_of_nextToken hn).suffix
    rw [hstart, hdefine]
    exact ⟨0, .refl _, by simp only [EStateM.Result.state_error]; omega⟩
  · have hstart : start word frames s (.primitive .colon) = _ := read_of_none hn
    have hdefine : define .none s = .error s.truncated { s with source := t } :=
      (define_eq .none s).trans (bind_of_ok (onSource_of_ok hn))
    have hle := Source.unreadChars_le (Source.moved_of_nextToken hn).suffix
    rw [hstart, hdefine]
    exact ⟨0, .refl _, by simp only [EStateM.Result.state_error]; omega⟩
  · have hstart : start word frames s (.primitive .colon) = _ := read_of_token hn
    have hle := Source.unreadChars_le (Source.moved_of_nextToken hn).suffix
    obtain ⟨n, hcomes, hn'⟩ :=
      compile_comes s.truncated name [] frames hbody (s := { s with source := t }) rfl hd rfl
    rw [hstart, define_of_name hn hd hbody, source_close]
    exact ⟨n, hcomes, by omega⟩

end Draft

end Machine

end Forth
