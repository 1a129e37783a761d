import Forth.Proofs.Dictionary.View
import Forth.Proofs.Session.Commuting
import Forth.Proofs.Session.Failing

/-! # Sessions seen through a view of places

A place tells where something was read, and nothing that a session does depends
on places. So they can be seen through a view before an action or after it. The
view has to move on with the cursor, as one does that gives the source another
name.
-/

namespace EStateM.Result

variable {ε δ τ υ α β : Type}

def trimap (value : α → β) (failure : ε → δ) (state : τ → υ) : Result ε τ α → Result δ υ β
  | .ok a s => .ok (value a) (state s)
  | .error e s => .error (failure e) (state s)

@[simp] theorem state_trimap (f : α → β) (g : ε → δ) (h : τ → υ) (r : Result ε τ α) :
    (r.trimap f g h).state = h r.state := by
  cases r <;> rfl

end EStateM.Result

namespace Forth

open Session

namespace Location

/-- What is seen of a place moves on as the place does. -/
def Advances (view : Location → Location) : Prop :=
  ∀ l c, view (l.advance c) = (view l).advance c

theorem Advances.advanceBy {view : Location → Location} (h : Advances view) (l : Location)
    (text : List Char) : view (l.advanceBy text) = (view l).advanceBy text := by
  induction text generalizing l with
  | nil => rfl
  | cons c text ih => rw [advanceBy_cons, ih, h, advanceBy_cons]

/-- The same place in a source of another name. -/
def named (path : String) (l : Location) : Location := { l with path }

theorem advances_named (path : String) : Advances (named path) := by
  intro l c
  rw [advance, advance]
  split <;> rfl

end Location

variable {view : Location → Location}

def Failure.seen (view : Location → Location) (failure : Failure) : Failure :=
  { failure with location := failure.location.map view }

@[simp] theorem Failure.cause_seen (view : Location → Location) (failure : Failure) :
    (failure.seen view).cause = failure.cause := rfl

namespace Source

def seen (view : Location → Location) (s : Source) : Source :=
  { s with location := view s.location }

theorem moveBy_seen (hv : Location.Advances view) (s : Source) (taken rest : List Item) :
    (s.seen view).moveBy taken rest = (s.moveBy taken rest).seen view := by
  rw [moveBy, moveBy, seen, seen, hv.advanceBy]

theorem peek_seen (view : Location → Location) (s : Source) :
    peek (s.seen view) = (peek s).mapState (seen view) := by
  obtain ⟨location, unread, reserve⟩ := s
  simp only [peek, seen]
  cases unread.dropWhile Item.isSeam with
  | nil => rfl
  | cons i rest => cases i <;> rfl

theorem restOfLine_seen (hv : Location.Advances view) (s : Source) :
    restOfLine (s.seen view) = (restOfLine s).mapState (seen view) := by
  refine bind_mapState (peek_seen view s) fun c t _ => ?_
  cases c with
  | none => rfl
  | some c => exact congrArg (EStateM.Result.ok _) (moveBy_seen hv t _ _)

theorem nextToken_seen (hv : Location.Advances view) (s : Source) :
    nextToken (s.seen view) =
      (nextToken s).trimap (Option.map (Token.seen view)) (Failure.seen view) (seen view) := by
  have hatWord : (s.seen view).atWord = s.atWord.seen view := moveBy_seen hv s _ _
  have hpastWord : (s.seen view).pastWord = s.pastWord.seen view := moveBy_seen hv s _ _
  obtain h | ⟨reason, rest, h⟩ | ⟨c, rest, h, -⟩ := dropWhile_isGap_cases s.unread
  · rw [nextToken_of_nil (s := s.seen view) h, nextToken_of_nil h, hatWord]
    rfl
  · rw [nextToken_of_fault (s := s.seen view) h, nextToken_of_fault h, hatWord]
    rfl
  · have hword : (s.seen view).wordToken = s.wordToken.seen view :=
      congrArg (Token.mk s.wordToken.text) (congrArg Source.location hatWord)
    rw [nextToken_of_char (s := s.seen view) h, nextToken_of_char h, hpastWord, hword, bind_apply,
      bind_apply, peek_seen]
    obtain hw | ⟨reason, more, hw⟩ | ⟨d, more, hw, -⟩ := afterWord_cases s.unread
    · rw [peek_of_nil (s := s.pastWord) hw]
      rfl
    · rw [peek_of_fault (s := s.pastWord) hw]
      rfl
    · rw [peek_of_char (s := s.pastWord) hw]
      rfl

end Source

variable {κ σ α : Type}

def Session.seen (view : Location → Location) (s : Session κ σ) : Session κ σ :=
  { s with
    dictionary := s.dictionary.seen view, source := s.source.seen view,
    current := s.current.map view }

/-- The action does not tell whether its session is seen through the view. -/
def Blind (view : Location → Location) (m : SessionM κ σ α) : Prop :=
  ∀ s, m (s.seen view) = (m s).trimap id (Failure.seen view) (Session.seen view)

theorem Blind.of_commutes {m : SessionM κ σ α} (hm : Commutes (Session.seen view) m)
    (hfails : FailsUnplaced m) : Blind view m := by
  intro s
  rw [hm s]
  cases h : m s with
  | ok => rfl
  | error failure t =>
    cases hfails s failure t h <;> rfl

theorem Session.resolve_seen (s : Session κ σ) (t : Token) :
    (s.seen view).dictionary.resolve (t.seen view) =
      (s.dictionary.resolve t).map (Word.seen view) :=
  s.dictionary.resolve_seen t

theorem apart_seen (view : Location → Location) :
    Apart (Session.seen view : Session κ σ → Session κ σ) where
  stack _ _ := rfl
  output _ _ := rfl
  exiting _ _ := rfl
  sameOutput _ := rfl
  sameExiting _ := rfl

theorem blind_print (view : Location → Location) (text : String) :
    Blind view (print text : SessionM κ σ Unit) :=
  .of_commutes (.onOutput (apart_seen view).output (apart_seen view).sameOutput _) (FailsByIo.print text).unplaced

theorem blind_flush (view : Location → Location) : Blind view (flush : SessionM κ σ Unit) :=
  .of_commutes (.onOutput (apart_seen view).output (apart_seen view).sameOutput _) FailsByIo.flush.unplaced

theorem commutes_comment (hv : Location.Advances view) (define : SessionM κ σ Unit)
    (name : String) : Commutes (Session.seen view) (Primitive.comment.run define name) := by
  refine Commutes.bind (fun s => ?_) fun _ => .pure _ ()
  simp only [restOfLine, onSource, Session.seen, Source.restOfLine_seen hv]
  cases Source.restOfLine s.source <;> rfl

theorem blind_run (hv : Location.Advances view) {p : Primitive} (hp : p ≠ .colon)
    (define : SessionM κ σ Unit) (name : String) : Blind view (p.run define name) := by
  refine .of_commutes ?_ (.run hp define name)
  by_cases hc : p = .comment
  · subst hc
    exact commutes_comment hv define name
  · by_cases hd : p = .dotDictionary
    · subst hd
      intro s
      change printOrFail (s.dictionary.seen view).listing (s.seen view) = _
      rw [Dictionary.listing_seen]
      exact Commutes.onOutput (apart_seen view).output (apart_seen view).sameOutput _ s
    · intro s
      rw [Primitive.run_eq_perform ⟨hd, hc, hp⟩, Primitive.run_eq_perform ⟨hd, hc, hp⟩]
      exact Commutes.perform (apart_seen view) _ s

theorem nextToken_seen (hv : Location.Advances view) (s : Session κ σ) :
    nextToken (s.seen view) =
      (nextToken s).trimap (Option.map (Token.seen view)) (Failure.seen view)
        (Session.seen view) := by
  simp only [nextToken, onSource, Session.seen, Source.nextToken_seen hv]
  cases Source.nextToken s.source <;> rfl

theorem install_seen (name : Token) (steps : List (Step κ)) (s : Session κ σ) :
    install (name.seen view).location (name.seen view).text steps (s.seen view) =
      (install name.location name.text steps s).trimap id (Failure.seen view)
        (Session.seen view) := by
  have hdefine := s.dictionary.define_seen view
    { name := name.text, location := some name.location, kind := .scripted,
      description := "User defined word.", behavior := .compiled steps }
  exact congrArg (fun dictionary => EStateM.Result.ok () { s.seen view with dictionary }) hdefine

end Forth
