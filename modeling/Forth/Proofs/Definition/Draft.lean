import Forth.Proofs.Dictionary.Binding
import Forth.Proofs.Source.Cursor
import Forth.Session.Definition

/-! # The text of a definition

A draft is what a definition says, read by someone who knows no dictionary and
is only told whether `\` begins a comment. While the comment of the language is
the only immediate word, `:` reads exactly this, whatever the tokens refer to.
-/

namespace Forth

/-- How the text of a definition ends: with its `;`, with the input, or at a fault. -/
inductive DraftEnd where
  | closed
  | cutOff
  | failed (failure : Failure)

def DraftEnd.failure? (truncated : Failure) : DraftEnd → Option Failure
  | closed => none
  | cutOff => some truncated
  | failed failure => some failure

structure Draft where
  name : Option Token := none
  /-- The tokens of the body that are outside of comments. -/
  body : List Token := []
  /-- The tokens that begin the comments. -/
  comments : List Token := []
  ending : DraftEnd

def Token.unknown (t : Token) : Failure :=
  { cause := .unknownWord t.text, location := t.location }

namespace Source

def draftBody (comments : Bool) (s : Source) : Draft × Source :=
  match _hs : nextToken s with
  | .error failure t => ({ ending := .failed failure }, t)
  | .ok none t => ({ ending := .cutOff }, t)
  | .ok (some token) t =>
    if token.text = endOfDefinition then ({ ending := .closed }, t)
    else if comments = true ∧ token.text = Dictionary.commentName then
      match _ht : restOfLine t with
      | .error failure u => ({ comments := [token], ending := .failed failure }, u)
      | .ok _ u =>
        let (d, last) := draftBody comments u
        ({ d with comments := token :: d.comments }, last)
    else
      let (d, last) := draftBody comments t
      ({ d with body := token :: d.body }, last)
termination_by s.unread.length
decreasing_by
  · exact (moved_of_restOfLine _ht).length_le.trans_lt (length_lt_of_nextToken _hs)
  · exact length_lt_of_nextToken _hs

/-- The name, the body, and the source behind it. -/
def draft (comments : Bool) (s : Source) : Draft × Source :=
  match nextToken s with
  | .error failure t => ({ ending := .failed failure }, t)
  | .ok none t => ({ ending := .cutOff }, t)
  | .ok (some name) t =>
    let (d, last) := draftBody comments t
    ({ d with name := some name }, last)

inductive Drafts (comments : Bool) : Source → Draft → Source → Prop
  | failed {s t : Source} {failure : Failure} : nextToken s = .error failure t →
      Drafts comments s { ending := .failed failure } t
  | cutOff {s t : Source} : nextToken s = .ok none t → Drafts comments s { ending := .cutOff } t
  | closed {s t : Source} {token : Token} : nextToken s = .ok (some token) t →
      token.text = endOfDefinition → Drafts comments s { ending := .closed } t
  | commentFailed {s t u : Source} {token : Token} {failure : Failure} :
      nextToken s = .ok (some token) t → token.text ≠ endOfDefinition →
      comments = true ∧ token.text = Dictionary.commentName →
      restOfLine t = .error failure u →
      Drafts comments s { comments := [token], ending := .failed failure } u
  | comment {s t u last : Source} {token : Token} {line : Option String} {d : Draft} :
      nextToken s = .ok (some token) t → token.text ≠ endOfDefinition →
      comments = true ∧ token.text = Dictionary.commentName →
      restOfLine t = .ok line u → Drafts comments u d last →
      Drafts comments s { d with comments := token :: d.comments } last
  | token {s t last : Source} {token : Token} {d : Draft} :
      nextToken s = .ok (some token) t → token.text ≠ endOfDefinition →
      ¬(comments = true ∧ token.text = Dictionary.commentName) → Drafts comments t d last →
      Drafts comments s { d with body := token :: d.body } last

theorem drafts_draftBody (comments : Bool) (s : Source) :
    Drafts comments s (draftBody comments s).1 (draftBody comments s).2 := by
  fun_induction draftBody comments s with
  | case1 s failure t hs => exact .failed hs
  | case2 s t hs => exact .cutOff hs
  | case3 s token t hs hend => exact .closed hs hend
  | case4 s token t hs hend hc failure u ht => exact .commentFailed hs hend hc ht
  | case5 s token t hs hend hc line u ht d last hd ih =>
    rw [hd] at ih
    exact .comment hs hend hc ht ih
  | case6 s token t hs hend hc d last hd ih =>
    rw [hd] at ih
    exact .token hs hend hc ih

theorem draft_of_error {comments : Bool} {s t : Source} {failure : Failure}
    (h : nextToken s = .error failure t) :
    s.draft comments = ({ ending := .failed failure }, t) := by
  simp only [draft, h]

theorem draft_cases (comments : Bool) (s : Source) :
    (∃ failure t, nextToken s = .error failure t ∧
      s.draft comments = ({ ending := .failed failure }, t)) ∨
    (∃ t, nextToken s = .ok none t ∧ s.draft comments = ({ ending := .cutOff }, t)) ∨
    ∃ name t d u, nextToken s = .ok (some name) t ∧ Drafts comments t d u ∧
      s.draft comments = ({ d with name := some name }, u) := by
  cases hn : nextToken s with
  | error failure t => exact .inl ⟨failure, t, rfl, draft_of_error hn⟩
  | ok token t =>
    cases token with
    | none => exact .inr (.inl ⟨t, rfl, by simp only [draft, hn]⟩)
    | some name =>
      refine .inr (.inr ⟨name, t, _, _, rfl, drafts_draftBody comments t, ?_⟩)
      simp only [draft, hn]

end Source

namespace Draft

def unknown? {κ : Type} (d : Draft) (dictionary : Dictionary (Behavior κ)) : Option Token :=
  d.body.find? fun t => (dictionary.resolve t).isNone

/-- Why nothing is defined. A missing end counts before an unknown word. -/
def failure? {κ : Type} (d : Draft) (truncated : Failure) (dictionary : Dictionary (Behavior κ)) :
    Option Failure :=
  (d.ending.failure? truncated).or ((d.unknown? dictionary).map Token.unknown)

section Failure

variable {κ : Type} {dictionary : Dictionary (Behavior κ)} {t : Token}

theorem failure?_token_of_resolve {d : Draft} {truncated : Failure} {w : Word (Behavior κ)}
    (h : dictionary.resolve t = some w) :
    { d with body := t :: d.body : Draft }.failure? truncated dictionary =
      d.failure? truncated dictionary := by
  simp [failure?, unknown?, h]

theorem failure?_token_of_unknown {d : Draft} {truncated : Failure}
    (h : dictionary.resolve t = none) :
    { d with body := t :: d.body : Draft }.failure? truncated dictionary =
      some ((d.ending.failure? truncated).getD t.unknown) := by
  cases d.ending <;> simp [failure?, unknown?, DraftEnd.failure?, h]

end Failure

end Draft

end Forth
