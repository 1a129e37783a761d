import Forth.Proofs.Session.Reachable
import Forth.Proofs.Source.Text

/-! # Where the tokens of a definition stand

Whatever is read from a text stands behind what was read before. So two tokens
of a text that are not read at the same time are not at the same place.
-/

namespace Forth

namespace Source

/-- The cursor is in the text called `path` and has come past `before`. -/
def HasRead (path : String) (before : List Char) (s : Source) : Prop :=
  ∃ more rest, s = between path (before ++ more) rest

end Source

/-- The token is read from a cursor that has come past `before`. -/
def Token.Behind (path : String) (before : List Char) (t : Token) : Prop :=
  ∃ more, t.location = .behind path (before ++ more)

/-- A token behind another one, whose text is not empty, is at another place. -/
theorem Token.Behind.location_ne {path : String} {before word : List Char} {t : Token}
    (h : t.Behind path (before ++ word)) (hword : word ≠ []) :
    t.location ≠ .behind path before := by
  obtain ⟨more, hmore⟩ := h
  rw [hmore, List.append_assoc]
  exact Location.behind_append_ne path before (List.append_ne_nil_of_left_ne_nil hword more)

namespace Source

variable {path : String} {before : List Char} {comments : Bool} {s t u : Source} {token : Token}
  {d : Draft}

theorem HasRead.nextToken (h : s.HasRead path before) :
    (nextToken s).state.HasRead path before := by
  obtain ⟨more, rest, rfl⟩ := h
  rw [nextToken_between]
  exact ⟨more ++ Text.gap rest ++ Text.word rest, Text.afterWord rest, by simp⟩

theorem HasRead.restOfLine (h : s.HasRead path before) :
    (restOfLine s).state.HasRead path before := by
  obtain ⟨more, rest, rfl⟩ := h
  rw [restOfLine_between]
  exact ⟨more ++ Text.line rest, Text.afterLine rest, by simp⟩

theorem HasRead.of_nextToken {token : Option Token} (h : s.HasRead path before)
    (hn : Source.nextToken s = .ok token t) : t.HasRead path before := by
  have ht := h.nextToken
  rwa [hn] at ht

theorem HasRead.behind (h : s.HasRead path before)
    (hn : Source.nextToken s = .ok (some token) t) : token.Behind path before := by
  obtain ⟨more, rest, rfl⟩ := h
  rw [nextToken_between] at hn
  split at hn
  · cases hn
  · cases hn
    exact ⟨more ++ Text.gap rest, by simp⟩

/-- The cursor has come past the token. -/
theorem HasRead.past (h : s.HasRead path before)
    (hn : Source.nextToken s = .ok (some token) t) :
    ∃ read word, word ≠ [] ∧ token.location = .behind path read ∧ t.HasRead path (read ++ word) := by
  obtain ⟨more, rest, rfl⟩ := h
  rw [nextToken_between] at hn
  split at hn
  · cases hn
  · rename_i hword
    cases hn
    exact ⟨_, Text.word rest, hword, rfl, [], Text.afterWord rest, by simp⟩

/-- A text has no faults. -/
theorem HasRead.exists_nextToken (h : s.HasRead path before) :
    ∃ token t, Source.nextToken s = .ok token t := by
  obtain ⟨more, rest, rfl⟩ := h
  exact ⟨_, _, nextToken_between path (before ++ more) rest⟩

theorem Drafts.hasRead (h : Drafts comments s d u) (hs : s.HasRead path before) :
    u.HasRead path before ∧ ∀ c ∈ d.comments, c.Behind path before := by
  induction h with
  | failed hn =>
    obtain ⟨token, t, hok⟩ := hs.exists_nextToken
    rw [hn] at hok
    cases hok
  | cutOff hn => exact ⟨hs.of_nextToken hn, nofun⟩
  | closed hn => exact ⟨hs.of_nextToken hn, nofun⟩
  | commentFailed hn _ _ hline =>
    obtain ⟨more, rest, rfl⟩ := hs.of_nextToken hn
    rw [restOfLine_between] at hline
    cases hline
  | comment hn _ _ hline _ ih =>
    have hu := (hs.of_nextToken hn).restOfLine
    rw [hline] at hu
    obtain ⟨hlast, hcomments⟩ := ih hu
    refine ⟨hlast, fun c hc => ?_⟩
    rcases List.mem_cons.mp hc with rfl | hc
    · exact hs.behind hn
    · exact hcomments c hc
  | token hn _ _ _ ih => exact ih (hs.of_nextToken hn)

theorem HasRead.draft (hs : s.HasRead path before) (comments : Bool) :
    (s.draft comments).2.HasRead path before ∧
      ∀ c ∈ (s.draft comments).1.comments, c.Behind path before := by
  obtain ⟨failed, t, hn, -⟩ | ⟨t, hn, hd⟩ | ⟨name, t, d, u, hn, hbody, hd⟩ := draft_cases comments s
  · obtain ⟨token, t, hok⟩ := hs.exists_nextToken
    rw [hn] at hok
    cases hok
  · rw [hd]
    exact ⟨hs.of_nextToken hn, nofun⟩
  · rw [hd]
    exact hbody.hasRead (hs.of_nextToken hn)

end Source

open Session

variable {σ : Type}

structure Session.HasRead (path : String) (before : List Char) (s : Session Empty σ) : Prop where
  standard : s.dictionary.Standard
  source : s.source.HasRead path before

theorem Session.HasRead.invariant (path : String) (before : List Char) :
    Invariant (Session.HasRead path before : Session Empty σ → Prop) := by
  refine .of_reading (P := fun d u => d.Standard ∧ u.HasRead path before) ?_ ?_ ?_ ?_
  · exact fun s => ⟨fun hs => ⟨hs.standard, hs.source⟩, fun hs => ⟨hs.1, hs.2⟩⟩
  · intro s hs
    refine ⟨standard_define .none hs.standard, ?_⟩
    rw [source_define .none hs.standard]
    exact (hs.source.draft _).1
  · exact fun d u h => ⟨h.1, h.2.nextToken⟩
  · exact fun d u h => ⟨h.1, h.2.restOfLine⟩

end Forth
