import Forth.Proofs.Machine.Alike
import Forth.Proofs.Machine.Extension

/-! # A comment on the way

A machine that is about to read a token and finds a comment reads it, and is
about to read a token again. So it stays alike with a machine that has no
comment there, unless it waits for the name of a definition.
-/

namespace Forth

open Session

variable {σ : Type}

namespace Machine

/-- The next step leaves no more than `n` characters to read, and this one leaves more. -/
def Passes (n : Nat) (m : Machine σ) : Prop :=
  n < m.session.source.unreadChars ∧ (step m).session.source.unreadChars ≤ n

instance (n : Nat) (m : Machine σ) : Decidable (Passes n m) :=
  inferInstanceAs (Decidable (_ ∧ _))

/-- A `:` is about to read its name. -/
def awaitsName : Machine σ → Bool
  | invoke (.primitive .colon) _ _ _ => true
  | _ => false

def hasEnded : Machine σ → Bool
  | ended _ => true
  | _ => false

theorem exists_of_hasEnded {m : Machine σ} (h : m.hasEnded = true) : ∃ r, m = ended r := by
  cases m with
  | ended r => exact ⟨r, rfl⟩
  | _ => cases h

section Run

variable {t : Token} {w : Word (Behavior Empty)} {frame : Frame} {frames : List Frame}
  {s : Session Empty σ} {line : Option String} {a b : Source}

/-- A token that names the comment takes the rest of its line, and nothing else happens. -/
theorem reaches_comment (hb : w.behavior = .primitive .comment)
    (hl : Source.restOfLine s.source = .ok line b) :
    Reaches (execute t w frames s)
      (answer (.ok ()) frames { s with source := b, current := some t.location }) := by
  refine .of_step_eq ((step_execute_comment (pure ()) hb).trans ?_)
  rw [executeWith_comment_of_ok hb hl]
  rfl

theorem turn_reaches_comment (hs : s.output.Steady) (hexit : s.exiting = false)
    (hn : Source.nextToken s.source = .ok (some t) a) (hw : s.dictionary.resolve t = some w)
    (hb : w.behavior = .primitive .comment) (hl : Source.restOfLine a = .ok line b) :
    Reaches (turn s) (turn
      { s with source := b, output := s.output.flushed, current := some t.location }) := by
  have hflush := flush_of_steady hs
  apply Reaches.step
  rw [show step (turn s) = takeToken t { s with source := a, output := s.output.flushed } from
    takeTurn_of_token hflush hexit (onSource_of_ok hn)]
  simp only [takeToken, hw]
  exact (reaches_comment hb hl).trans (.of_step_eq rfl)

theorem resume_reaches_comment (hframe : ¬frame.IsReplay)
    (hn : Source.nextToken s.source = .ok (some t) a) (ht : t.text ≠ endOfDefinition)
    (hw : s.dictionary.resolve t = some w) (hi : w.immediate = true)
    (hb : w.behavior = .primitive .comment) (hl : Source.restOfLine a = .ok line b) :
    Reaches (answer (.ok ()) (frame :: frames) s)
      (answer (.ok ()) (frame :: frames) { s with source := b, current := some t.location }) := by
  have hresume : step (answer (.ok ()) (frame :: frames) s) =
      execute t w (frame :: frames) { s with source := a } := by
    cases frame with
    | replay rest => exact absurd ⟨rest, rfl⟩ hframe
    | compile truncated name steps =>
      refine (read_of_token hn).trans ?_
      simp only [compile, if_neg ht, hw, hi, if_true]
    | skip truncated failure =>
      refine (read_of_token hn).trans ?_
      simp only [skip, if_neg ht, hw, hi, if_true]
  apply Reaches.step
  rw [hresume]
  exact reaches_comment hb hl

end Run

section Alike

variable {m k : Machine σ} {P : Pairing}

/-- The second machine reads a comment and is about to do what the first one is about to do. -/
theorem Alike.reaches_comment {t : Token} {line : Option String} {a b : Source}
    (h : Alike P m k) (hm : Reading m) (hname : m.awaitsName = false)
    (hd : k.session.dictionary.Proper) (hc : k.session.dictionary.bindsComment = true)
    (ht : t.text = Dictionary.commentName)
    (hn : Source.nextToken k.session.source = .ok (some t) a)
    (hl : Source.restOfLine a = .ok line b) (hidle : P.idle m.session.source b) :
    ∃ l, Reaches k l ∧ Alike P m l ∧ l.session.source = b := by
  obtain ⟨w, hw, hi, hb⟩ := hd.immediate_of_bindsComment hc ht
  have hend : t.text ≠ endOfDefinition := by
    rw [ht]
    decide
  cases hm with
  | name => cases hname
  | turn hexit =>
    cases h with
    | turn hs _ =>
      have hreaches := turn_reaches_comment hs.output.right (hs.exiting ▸ hexit) hn hw hb hl
      refine ⟨_, hreaches, .turn ⟨hs.stack, hs.dictionary, ?_, hs.exiting⟩ hidle, rfl⟩
      exact ⟨hs.output.written, hs.output.room, hs.output.left, hs.output.right.flushed⟩
  | compile | skip =>
    cases h with
    | answer hkind hs hframes _ =>
      rename_i c others u _
      cases c with
      | error => cases hkind
      | ok =>
        cases hframes with
        | cons hframe hframes =>
          rename_i held others
          have hheld : ¬held.IsReplay := by
            rintro ⟨rest, rfl⟩
            cases hframe
          have hreaches : Reaches (Machine.answer (.ok ()) (held :: others) u) _ :=
            resume_reaches_comment hheld hn hend hw hi hb hl
          exact ⟨_, hreaches, .answer rfl (hs.moved _ _ _ _) (.cons hframe hframes) hidle, rfl⟩

end Alike

section Passing

variable {frames : List Frame} {s : Session Empty σ} {truncated : Failure}

theorem source_read {found : Token → Session Empty σ → Machine σ}
    (hfound : ∀ t, SourceFree (found t)) :
    (read truncated frames s found).session.source = (Source.nextToken s.source).state := by
  cases h : Source.nextToken s.source with
  | error failure a =>
    rw [read_of_error h]
    rfl
  | ok token a =>
    cases token with
    | none =>
      rw [read_of_none h]
      rfl
    | some t =>
      rw [read_of_token h]
      exact (hfound t).source_eq { s with source := a }

theorem source_takeTurn (hs : s.output.Steady) (hexit : s.exiting = false) :
    (takeTurn s).session.source = (Source.nextToken s.source).state := by
  have hflush := flush_of_steady hs
  cases h : Source.nextToken s.source with
  | error failure a =>
    rw [takeTurn_of_read_error hflush hexit (onSource_of_error h)]
    rfl
  | ok token a =>
    cases token with
    | none =>
      rw [takeTurn_of_end hflush hexit (onSource_of_ok h)]
      rfl
    | some t =>
      rw [takeTurn_of_token hflush hexit (onSource_of_ok h)]
      exact (sourceFree_takeToken t).source_eq _

/-- A step that reads a token does nothing else to the source. -/
theorem Reading.source_step {m : Machine σ} (hm : Reading m) (hs : m.session.output.Steady) :
    (step m).session.source = (Source.nextToken m.session.source).state := by
  cases hm with
  | turn hexit => exact source_takeTurn hs hexit
  | name => exact source_read fun t u source => rfl
  | compile => exact source_read (sourceFree_compile _ _ _ _)
  | skip => exact source_read (sourceFree_skip _ _ _)

end Passing

end Machine

end Forth
