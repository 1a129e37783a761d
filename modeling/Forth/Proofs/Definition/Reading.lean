import Forth.Proofs.Definition.Draft
import Forth.Session.Definition

/-! # How a definition is read

A body that is compiled and a body that is thrown away are read alike, as a
draft. The immediate words that are run on the way are comments.
-/

namespace Forth

namespace Session

variable {κ σ : Type}

/-- The session once a definition is read: each comment was run at its own place. -/
def afterDraft (s : Session κ σ) (d : Draft) (u : Source) : Session κ σ :=
  { s with source := u, current := d.comments.foldl (fun _ t => some t.location) s.current }

end Session

open Session

section Read

variable {κ σ : Type} {define : SessionM κ σ Unit} {host : Host κ σ} {location : Location}
  {w : Word (Behavior κ)} {s : Session κ σ} {u : Source}

theorem executeWith_comment_of_ok {line : Option String} (hw : w.behavior = .primitive .comment)
    (h : Source.restOfLine s.source = .ok line u) :
    Word.executeWith define host location w s =
      .ok () { s with source := u, current := some location } := by
  rw [Word.executeWith, hw, modify_bind_apply]
  exact bind_of_ok (onSource_of_ok (s := { s with current := some location }) h)

theorem executeWith_comment_of_error {failure : Failure} (hw : w.behavior = .primitive .comment)
    (h : Source.restOfLine s.source = .error failure u) :
    Word.executeWith define host location w s =
      .error failure { s with source := u, current := some location } := by
  rw [Word.executeWith, hw, modify_bind_apply]
  exact bind_of_error (onSource_of_error (s := { s with current := some location }) h)

def finish {α : Type} (failure? : Option Failure) (a : α) (s : Session κ σ) :
    EStateM.Result Failure (Session κ σ) α :=
  match failure? with
  | none => .ok a s
  | some failure => .error failure s

theorem bind_of_finish {α β : Type} {m : SessionM κ σ α} {failure? : Option Failure} {a : α}
    {t : Session κ σ} (f : α → β) (h : m s = finish failure? a t) :
    (do let a ← m; return f a : SessionM κ σ β) s = finish failure? (f a) t := by
  cases failure? with
  | none => exact bind_of_ok h
  | some failure => exact bind_of_error h

section Tokens

variable {execute : Execute κ σ} {comments : Bool} {t : Token}

theorem exists_comment (hd : s.dictionary.Standard)
    (hc : s.dictionary.bindsComment = true ∧ t.text = Dictionary.commentName) :
    ∃ w, s.dictionary.resolve t = some w ∧ w.immediate = true ∧
      w.behavior = .primitive .comment := by
  obtain ⟨w, hw⟩ := Dictionary.exists_resolve_of_bindsComment hc.1 hc.2
  have himm : w.immediate = true := (hd.immediate_iff hw).mpr ⟨hc.2, hc.1⟩
  exact ⟨w, hw, himm, hd.behavior_of_immediate hw himm⟩

theorem immediate_eq_false (hd : s.dictionary.Standard)
    (hc : ¬(s.dictionary.bindsComment = true ∧ t.text = Dictionary.commentName))
    (hw : s.dictionary.resolve t = some w) : w.immediate = false := by
  rw [← Bool.not_eq_true, hd.immediate_iff hw]
  exact fun h => hc ⟨h.2, h.1⟩

theorem skipToken_of_immediate (h : s.dictionary.resolve t = some w) (hw : w.immediate = true) :
    skipToken execute t s = (do let _ ← attempt (execute t.location w) : SessionM κ σ Unit) s := by
  simp only [skipToken, get_bind_apply, h, hw, if_true]

theorem skipToken_of_not_comment (hd : s.dictionary.Standard)
    (hc : ¬(s.dictionary.bindsComment = true ∧ t.text = Dictionary.commentName)) :
    skipToken execute t s = .ok () s := by
  simp only [skipToken, get_bind_apply]
  cases hw : s.dictionary.resolve t with
  | none => rfl
  | some w =>
    simp only [immediate_eq_false hd hc hw, Bool.false_eq_true, if_false]
    rfl

theorem skipToken_of_comment {line : Option String} (hd : s.dictionary.Standard)
    (hc : s.dictionary.bindsComment = true ∧ t.text = Dictionary.commentName)
    (h : Source.restOfLine s.source = .ok line u) :
    skipToken (Word.executeWith define host) t s =
      .ok () { s with source := u, current := some t.location } := by
  obtain ⟨w, hw, himm, hb⟩ := exists_comment hd hc
  rw [skipToken_of_immediate hw himm]
  exact bind_of_ok (attempt_of_ok (executeWith_comment_of_ok hb h))

theorem skipToken_of_comment_error {failure : Failure} (hd : s.dictionary.Standard)
    (hc : s.dictionary.bindsComment = true ∧ t.text = Dictionary.commentName)
    (h : Source.restOfLine s.source = .error failure u) :
    skipToken (Word.executeWith define host) t s =
      .error failure { s with source := u, current := some t.location } := by
  obtain ⟨w, hw, himm, hb⟩ := exists_comment hd hc
  rw [skipToken_of_immediate hw himm]
  exact bind_of_error
    (attempt_of_fatal (executeWith_comment_of_error hb h) (Source.met_of_restOfLine h).isFatal)

theorem compileToken_of_immediate (h : s.dictionary.resolve t = some w) (hw : w.immediate = true) :
    compileToken execute t s =
      (do execute t.location w; return none : SessionM κ σ (Option (Step κ))) s := by
  simp only [compileToken, get_bind_apply, h, hw, if_true]

theorem compileToken_of_not_comment (hd : s.dictionary.Standard)
    (hc : ¬(s.dictionary.bindsComment = true ∧ t.text = Dictionary.commentName)) :
    attempt (compileToken execute t) s =
      match s.dictionary.stepOf? t with
      | some step => .ok (.ok (some step)) s
      | none => .ok (.error t.unknown) s := by
  rw [Dictionary.stepOf?]
  cases hw : s.dictionary.resolve t with
  | none =>
    have hthrow : compileToken execute t s = .error t.unknown s := by
      simp only [compileToken, get_bind_apply, hw]
      rfl
    exact attempt_of_recoverable hthrow rfl
  | some w =>
    refine attempt_of_ok ?_
    simp only [compileToken, get_bind_apply, hw, immediate_eq_false hd hc hw, Bool.false_eq_true,
      if_false]
    rfl

theorem compileToken_of_comment {line : Option String} (hd : s.dictionary.Standard)
    (hc : s.dictionary.bindsComment = true ∧ t.text = Dictionary.commentName)
    (h : Source.restOfLine s.source = .ok line u) :
    attempt (compileToken (Word.executeWith define host) t) s =
      .ok (.ok none) { s with source := u, current := some t.location } := by
  obtain ⟨w, hw, himm, hb⟩ := exists_comment hd hc
  refine attempt_of_ok ?_
  rw [compileToken_of_immediate hw himm]
  exact bind_of_ok (executeWith_comment_of_ok hb h)

theorem compileToken_of_comment_error {failure : Failure} (hd : s.dictionary.Standard)
    (hc : s.dictionary.bindsComment = true ∧ t.text = Dictionary.commentName)
    (h : Source.restOfLine s.source = .error failure u) :
    attempt (compileToken (Word.executeWith define host) t) s =
      .error failure { s with source := u, current := some t.location } := by
  obtain ⟨w, hw, himm, hb⟩ := exists_comment hd hc
  refine attempt_of_fatal ?_ (Source.met_of_restOfLine h).isFatal
  rw [compileToken_of_immediate hw himm]
  exact bind_of_error (executeWith_comment_of_error hb h)

end Tokens

section SkipBody

variable {execute : Execute κ σ} {truncated : Failure} {bound : Nat} {t : Token}

theorem skipBody_of_error {failure : Failure}
    (h : Source.nextToken s.source = .error failure u) :
    skipBody execute truncated (bound + 1) s = .error failure { s with source := u } := by
  rw [skipBody]
  exact bind_of_error (onSource_of_error h)

theorem skipBody_of_none (h : Source.nextToken s.source = .ok none u) :
    skipBody execute truncated (bound + 1) s = .error truncated { s with source := u } := by
  rw [skipBody]
  exact bind_of_ok (onSource_of_ok h)

theorem skipBody_of_end (h : Source.nextToken s.source = .ok (some t) u)
    (ht : t.text = endOfDefinition) :
    skipBody execute truncated (bound + 1) s = .ok () { s with source := u } := by
  rw [skipBody]
  refine (bind_of_ok (onSource_of_ok h)).trans ?_
  simp only [ht, if_true]
  rfl

theorem skipBody_of_token (h : Source.nextToken s.source = .ok (some t) u)
    (ht : t.text ≠ endOfDefinition) :
    skipBody execute truncated (bound + 1) s =
      (do skipToken execute t; skipBody execute truncated bound : SessionM κ σ Unit)
        { s with source := u } := by
  rw [skipBody]
  refine (bind_of_ok (onSource_of_ok h)).trans ?_
  simp only [ht, if_false]

theorem compileBody_of_error {failure : Failure}
    (h : Source.nextToken s.source = .error failure u) :
    compileBody execute truncated (bound + 1) s = .error failure { s with source := u } := by
  rw [compileBody]
  exact bind_of_error (onSource_of_error h)

theorem compileBody_of_none (h : Source.nextToken s.source = .ok none u) :
    compileBody execute truncated (bound + 1) s = .error truncated { s with source := u } := by
  rw [compileBody]
  exact bind_of_ok (onSource_of_ok h)

theorem compileBody_of_end (h : Source.nextToken s.source = .ok (some t) u)
    (ht : t.text = endOfDefinition) :
    compileBody execute truncated (bound + 1) s = .ok [] { s with source := u } := by
  rw [compileBody]
  refine (bind_of_ok (onSource_of_ok h)).trans ?_
  simp only [ht, if_true]
  rfl

theorem compileBody_of_step {v : Session κ σ} {step : Option (Step κ)}
    (h : Source.nextToken s.source = .ok (some t) u) (ht : t.text ≠ endOfDefinition)
    (hstep : attempt (compileToken execute t) { s with source := u } = .ok (.ok step) v) :
    compileBody execute truncated (bound + 1) s =
      (do
        let steps ← compileBody execute truncated bound
        return step.toList ++ steps : SessionM κ σ (List (Step κ))) v := by
  rw [compileBody]
  refine (bind_of_ok (onSource_of_ok h)).trans ?_
  simp only [ht, if_false]
  exact bind_of_ok hstep

theorem compileBody_of_abandoned {v : Session κ σ} {failure : Failure}
    (h : Source.nextToken s.source = .ok (some t) u) (ht : t.text ≠ endOfDefinition)
    (hstep : attempt (compileToken execute t) { s with source := u } = .ok (.error failure) v) :
    compileBody execute truncated (bound + 1) s =
      (do skipBody execute truncated bound; throw failure : SessionM κ σ (List (Step κ))) v := by
  rw [compileBody]
  refine (bind_of_ok (onSource_of_ok h)).trans ?_
  simp only [ht, if_false]
  exact bind_of_ok hstep

theorem compileBody_of_fatal {v : Session κ σ} {failure : Failure}
    (h : Source.nextToken s.source = .ok (some t) u) (ht : t.text ≠ endOfDefinition)
    (hstep : attempt (compileToken execute t) { s with source := u } = .error failure v) :
    compileBody execute truncated (bound + 1) s = .error failure v := by
  rw [compileBody]
  refine (bind_of_ok (onSource_of_ok h)).trans ?_
  simp only [ht, if_false]
  exact bind_of_error hstep

end SkipBody

theorem exists_bound {n bound : Nat} (hlt : n < bound) : ∃ b, bound = b + 1 ∧ n ≤ b :=
  ⟨bound - 1, by omega, by omega⟩

/-- What is read when the body is thrown away. -/
theorem skipBody_of_drafts (truncated : Failure) {comments : Bool} {source u : Source} {d : Draft}
    (h : source.Drafts comments d u) {bound : Nat} (hs : s.source = source)
    (hd : s.dictionary.Standard) (hc : s.dictionary.bindsComment = comments)
    (hb : source.unread.length ≤ bound) :
    skipBody (Word.executeWith define host) truncated bound s =
      finish (d.ending.failure? truncated) () (s.afterDraft d u) := by
  induction h generalizing s bound with
  | failed hn =>
    obtain ⟨b, rfl, -⟩ := exists_bound ((Source.met_of_nextToken hn).length_lt.trans_le hb)
    exact skipBody_of_error (hs ▸ hn)
  | cutOff hn =>
    cases bound with
    | zero =>
      -- the bound is used up only where nothing is left to read
      have hnil := List.eq_nil_of_length_eq_zero (Nat.le_zero.mp hb)
      rw [Source.eq_of_nextToken_of_nil hn hnil, ← hs]
      rfl
    | succ bound => exact skipBody_of_none (hs ▸ hn)
  | closed hn ht =>
    obtain ⟨b, rfl, -⟩ := exists_bound ((Source.length_lt_of_nextToken hn).trans_le hb)
    exact skipBody_of_end (hs ▸ hn) ht
  | commentFailed hn ht hcomment hline =>
    obtain ⟨b, rfl, -⟩ := exists_bound ((Source.length_lt_of_nextToken hn).trans_le hb)
    rw [skipBody_of_token (hs ▸ hn) ht]
    exact bind_of_error (skipToken_of_comment_error hd (hc ▸ hcomment) hline)
  | @comment _ t u' _ token _ _ hn ht hcomment hline _ ih =>
    obtain ⟨b, rfl, hlt⟩ := exists_bound ((Source.length_lt_of_nextToken hn).trans_le hb)
    have hskip : skipToken (Word.executeWith define host) token { s with source := t } =
        .ok () { s with source := u', current := some token.location } :=
      skipToken_of_comment (s := { s with source := t }) hd (hc ▸ hcomment) hline
    rw [skipBody_of_token (hs ▸ hn) ht, bind_of_ok hskip]
    exact ih rfl hd hc ((Source.moved_of_restOfLine hline).length_le.trans hlt)
  | @token _ t _ token _ hn ht hcomment _ ih =>
    obtain ⟨b, rfl, hlt⟩ := exists_bound ((Source.length_lt_of_nextToken hn).trans_le hb)
    have hskip : skipToken (Word.executeWith define host) token { s with source := t } =
        .ok () { s with source := t } :=
      skipToken_of_not_comment (s := { s with source := t }) hd (hc ▸ hcomment)
    rw [skipBody_of_token (hs ▸ hn) ht, bind_of_ok hskip]
    exact ih rfl hd hc hlt

/-- What is read when the body is compiled, also beyond a token that refers to nothing. -/
theorem compileBody_of_drafts (truncated : Failure) {comments : Bool} {source u : Source}
    {d : Draft} (h : source.Drafts comments d u) {bound : Nat} (hs : s.source = source)
    (hd : s.dictionary.Standard) (hc : s.dictionary.bindsComment = comments)
    (hb : source.unread.length ≤ bound) :
    compileBody (Word.executeWith define host) truncated bound s =
      finish (d.failure? truncated s.dictionary) (d.body.filterMap s.dictionary.stepOf?)
        (s.afterDraft d u) := by
  induction h generalizing s bound with
  | failed hn =>
    obtain ⟨b, rfl, -⟩ := exists_bound ((Source.met_of_nextToken hn).length_lt.trans_le hb)
    exact compileBody_of_error (hs ▸ hn)
  | cutOff hn =>
    cases bound with
    | zero =>
      have hnil := List.eq_nil_of_length_eq_zero (Nat.le_zero.mp hb)
      rw [Source.eq_of_nextToken_of_nil hn hnil, ← hs]
      rfl
    | succ bound => exact compileBody_of_none (hs ▸ hn)
  | closed hn ht =>
    obtain ⟨b, rfl, -⟩ := exists_bound ((Source.length_lt_of_nextToken hn).trans_le hb)
    exact compileBody_of_end (hs ▸ hn) ht
  | @commentFailed _ t v token failure hn ht hcomment hline =>
    obtain ⟨b, rfl, -⟩ := exists_bound ((Source.length_lt_of_nextToken hn).trans_le hb)
    have hstep : attempt (compileToken (Word.executeWith define host) token)
        { s with source := t } =
          .error failure { s with source := v, current := some token.location } :=
      compileToken_of_comment_error (s := { s with source := t }) hd (hc ▸ hcomment) hline
    exact compileBody_of_fatal (hs ▸ hn) ht hstep
  | @comment _ t v _ token _ d hn ht hcomment hline _ ih =>
    obtain ⟨b, rfl, hlt⟩ := exists_bound ((Source.length_lt_of_nextToken hn).trans_le hb)
    have hstep : attempt (compileToken (Word.executeWith define host) token)
        { s with source := t } =
          .ok (.ok none) { s with source := v, current := some token.location } :=
      compileToken_of_comment (s := { s with source := t }) hd (hc ▸ hcomment) hline
    rw [compileBody_of_step (hs ▸ hn) ht hstep]
    exact bind_of_finish _ (ih (s := { s with source := v, current := some token.location }) rfl
      hd hc ((Source.moved_of_restOfLine hline).length_le.trans hlt))
  | @token _ t v token d hn ht hcomment hrest ih =>
    obtain ⟨b, rfl, hlt⟩ := exists_bound ((Source.length_lt_of_nextToken hn).trans_le hb)
    have hstep : attempt (compileToken (Word.executeWith define host) token)
        { s with source := t } =
          match s.dictionary.stepOf? token with
          | some step => .ok (.ok (some step)) { s with source := t }
          | none => .ok (.error token.unknown) { s with source := t } :=
      compileToken_of_not_comment (s := { s with source := t }) hd (hc ▸ hcomment)
    cases hr : s.dictionary.resolve token with
    | some w =>
      have hstepOf := Dictionary.stepOf?_of_resolve hr
      rw [hstepOf] at hstep
      rw [compileBody_of_step (hs ▸ hn) ht hstep, Draft.failure?_token_of_resolve hr,
        List.filterMap_cons_some hstepOf]
      exact bind_of_finish _ (ih (s := { s with source := t }) rfl hd hc hlt)
    | none =>
      -- the rest of the body is read by the other loop, and gives the same draft
      rw [Dictionary.stepOf?, hr] at hstep
      have hskip : skipBody (Word.executeWith define host) truncated b { s with source := t } =
          finish (d.ending.failure? truncated) () (s.afterDraft d v) :=
        skipBody_of_drafts truncated hrest (s := { s with source := t }) rfl hd hc hlt
      rw [compileBody_of_abandoned (hs ▸ hn) ht hstep, Draft.failure?_token_of_unknown hr,
        bind_apply, hskip]
      cases d.ending <;> rfl

end Read

section Define

variable {κ σ : Type} {host : Host κ σ} {s : Session κ σ}

/-- The draft of the definition that `:` would read now, and the source behind it. -/
def Session.draft (s : Session κ σ) : Draft × Source :=
  s.source.draft s.dictionary.bindsComment

def Session.truncated (s : Session κ σ) : Failure :=
  { cause := .truncatedDefinition, location := s.current }

def Session.drafted (s : Session κ σ) : Session κ σ := s.afterDraft s.draft.1 s.draft.2

def Draft.word (d : Draft) (dictionary : Dictionary (Behavior κ)) (name : Token) :
    Word (Behavior κ) where
  name := name.text
  location := some name.location
  kind := .scripted
  description := "User defined word."
  behavior := .compiled (d.body.filterMap dictionary.stepOf?)

theorem define_eq (host : Host κ σ) (s : Session κ σ) :
    define host s = (do
      match ← nextToken with
      | none => throw s.truncated
      | some name =>
        let bound := s.source.unread.length + s.source.reserve
        let execute := Word.executeWith (defineWithin host bound) host
        let steps ← compileBody execute s.truncated bound
        install name.location name.text steps : SessionM κ σ Unit) s := rfl

/-- Either there is a reason why nothing is defined, or the name is bound. -/
theorem define_of_standard (host : Host κ σ) (hd : s.dictionary.Standard) :
    (∃ failure, s.draft.1.failure? s.truncated s.dictionary = some failure ∧
      define host s = .error failure s.drafted) ∨
    ∃ name, s.draft.1.failure? s.truncated s.dictionary = none ∧ s.draft.1.name = some name ∧
      define host s = .ok ()
        { s.drafted with
          dictionary := s.dictionary.define (s.draft.1.word s.dictionary name) } := by
  rw [define_eq, drafted, draft]
  obtain ⟨failed, t, hn, hd'⟩ | ⟨t, hn, hd'⟩ | ⟨name, t, d, u, hn, hbody, hd'⟩ :=
    Source.draft_cases s.dictionary.bindsComment s.source
  · rw [hd']
    exact .inl ⟨failed, rfl, bind_of_error (onSource_of_error hn)⟩
  · rw [hd']
    exact .inl ⟨s.truncated, rfl, bind_of_ok (onSource_of_ok hn)⟩
  · let bound := s.source.unread.length + s.source.reserve
    have hcompile : compileBody (Word.executeWith (defineWithin host bound) host) s.truncated bound
        { s with source := t } =
          finish (d.failure? s.truncated s.dictionary) (d.body.filterMap s.dictionary.stepOf?)
            ({ s with source := t }.afterDraft d u) :=
      compileBody_of_drafts s.truncated hbody rfl hd rfl
        (Nat.le_add_right_of_le (Source.length_lt_of_nextToken hn).le)
    rw [hd']
    change (∃ failure, d.failure? s.truncated s.dictionary = some failure ∧ _) ∨
      ∃ x, d.failure? s.truncated s.dictionary = none ∧ _
    cases hfail : d.failure? s.truncated s.dictionary with
    | some failure =>
      rw [hfail] at hcompile
      exact .inl ⟨failure, rfl, (bind_of_ok (onSource_of_ok hn)).trans (bind_of_error hcompile)⟩
    | none =>
      rw [hfail] at hcompile
      exact .inr ⟨name, rfl, rfl, (bind_of_ok (onSource_of_ok hn)).trans (bind_of_ok hcompile)⟩

theorem source_define (host : Host κ σ) (hd : s.dictionary.Standard) :
    (define host s).state.source = s.draft.2 := by
  obtain ⟨failure, -, h⟩ | ⟨name, -, -, h⟩ := define_of_standard host hd
  · rw [h]
    rfl
  · rw [h]
    rfl

theorem output_define (host : Host κ σ) (hd : s.dictionary.Standard) :
    (define host s).state.output = s.output := by
  obtain ⟨failure, -, h⟩ | ⟨name, -, -, h⟩ := define_of_standard host hd
  · rw [h]
    rfl
  · rw [h]
    rfl

theorem standard_define (host : Host κ σ) (hd : s.dictionary.Standard) :
    (define host s).state.dictionary.Standard := by
  obtain ⟨failure, -, h⟩ | ⟨name, -, -, h⟩ := define_of_standard host hd
  · rw [h]
    exact hd
  · rw [h]
    exact hd.define ⟨nofun, nofun⟩

end Define

end Forth
