import Forth.Proofs.Source.Text

/-! # Texts that go on

Two cursors move through a text and through one that goes on on the next line.
They find the same tokens until the first one has met its end, since a newline
ends a token as the end of the text does.
-/

namespace Forth

namespace Text

section Stop

variable {p : Char → Bool} {text more : List Char} {stop : Char}

theorem takeWhile_append_stop (hp : p stop = false) (text more : List Char) :
    (text ++ stop :: more).takeWhile p = text.takeWhile p := by
  induction text with
  | nil => exact List.takeWhile_cons_of_neg (by simp [hp])
  | cons c text ih => simp only [List.cons_append, List.takeWhile_cons, ih]

theorem dropWhile_append_stop (hp : p stop = false) (text more : List Char) :
    (text ++ stop :: more).dropWhile p = text.dropWhile p ++ stop :: more := by
  induction text with
  | nil => exact List.dropWhile_cons_of_neg (by simp [hp])
  | cons c text ih =>
    simp only [List.cons_append, List.dropWhile_cons, ih]
    split <;> rfl

theorem takeWhile_append_of_dropWhile (h : text.dropWhile p ≠ []) (more : List Char) :
    (text ++ more).takeWhile p = text.takeWhile p := by
  induction text with
  | nil => exact absurd rfl h
  | cons c text ih =>
    cases hc : p c with
    | true =>
      rw [List.dropWhile_cons_of_pos hc] at h
      rw [List.cons_append, List.takeWhile_cons_of_pos hc, List.takeWhile_cons_of_pos hc, ih h]
    | false =>
      have hneg : ¬p c = true := by simp [hc]
      rw [List.cons_append, List.takeWhile_cons_of_neg hneg, List.takeWhile_cons_of_neg hneg]

theorem dropWhile_append_of_ne_nil (h : text.dropWhile p ≠ []) (more : List Char) :
    (text ++ more).dropWhile p = text.dropWhile p ++ more := by
  simp [List.dropWhile_append, h]

end Stop

section Word

variable {text : List Char}

theorem dropWhile_isBlank_ne_nil (h : word text ≠ []) : text.dropWhile isBlank ≠ [] := by
  intro hnil
  rw [word, hnil] at h
  exact h rfl

theorem gap_append (h : word text ≠ []) (more : List Char) : gap (text ++ more) = gap text :=
  takeWhile_append_of_dropWhile (dropWhile_isBlank_ne_nil h) more

theorem isLetter_of_isBlank {stop : Char} (hs : isBlank stop = true) : isLetter stop = false := by
  simp [isLetter, hs]

theorem word_append_blank {stop : Char} (hs : isBlank stop = true) (h : word text ≠ [])
    (more : List Char) : word (text ++ stop :: more) = word text := by
  rw [word, dropWhile_append_of_ne_nil (dropWhile_isBlank_ne_nil h)]
  exact takeWhile_append_stop (isLetter_of_isBlank hs) _ _

theorem afterWord_append_blank {stop : Char} (hs : isBlank stop = true) (h : word text ≠ [])
    (more : List Char) : afterWord (text ++ stop :: more) = afterWord text ++ stop :: more := by
  rw [afterWord, dropWhile_append_of_ne_nil (dropWhile_isBlank_ne_nil h)]
  exact dropWhile_append_stop (isLetter_of_isBlank hs) _ _

end Word

section Line

variable {text : List Char}

theorem line_append_of_mem (h : '\n' ∈ text) (more : List Char) :
    line (text ++ more) = line text ∧ afterLine (text ++ more) = afterLine text ++ more := by
  have hd : text.dropWhile (· ≠ '\n') ≠ [] := by
    rw [Ne, List.dropWhile_eq_nil_iff]
    exact fun hall => absurd (hall '\n' h) (by decide)
  obtain ⟨c, rest, hrest⟩ := List.exists_cons_of_ne_nil hd
  rw [line, afterLine, line, afterLine, takeWhile_append_of_dropWhile hd,
    dropWhile_append_of_ne_nil hd, hrest]
  exact ⟨rfl, rfl⟩

theorem afterLine_of_not_mem (h : '\n' ∉ text) : afterLine text = [] := by
  rw [← line_of_not_mem h, afterLine_line]

end Line

end Text

namespace Source

/-- The second source goes on, on the next line, where the text of the first one ends. Their
cursors stand at the same place, or the first one at its end. -/
inductive Ahead (more : List Char) : Source → Source → Prop
  | within (path : String) (before rest : List Char) :
      Ahead more (between path before rest) (between path before (rest ++ '\n' :: more))
  | past (path : String) (before passed rest : List Char) :
      Ahead more (between path before []) (between path passed rest)

namespace Ahead

variable {more : List Char} {s t : Source}

theorem ofText (path text : String) (more : String) :
    Ahead more.toList (Source.ofText path text) (Source.ofText path (text ++ "\n" ++ more)) := by
  have htext : (text ++ "\n" ++ more).toList = text.toList ++ '\n' :: more.toList := by
    simp [String.toList_append]
  rw [ofText_eq_between, ofText_eq_between, htext]
  exact .within path [] text.toList

/-- Both find the same token, or the first one none. -/
theorem nextToken (h : Ahead more s t) :
    (∃ u, Source.nextToken s = .ok none u) ∨
      ∃ token u v, Source.nextToken s = .ok (some token) u ∧
        Source.nextToken t = .ok (some token) v ∧ Ahead more u v := by
  cases h with
  | past path before passed rest =>
    have hword : Text.word [] = [] := rfl
    rw [nextToken_between, if_pos hword]
    exact .inl ⟨_, rfl⟩
  | within path before rest =>
    by_cases hword : Text.word rest = []
    · rw [nextToken_between, if_pos hword]
      exact .inl ⟨_, rfl⟩
    · rw [nextToken_between, if_neg hword, nextToken_between,
        Text.word_append_blank isBlank_newline hword, if_neg hword, Text.gap_append hword,
        Text.afterWord_append_blank isBlank_newline hword]
      exact .inr ⟨_, _, _, rfl, rfl, .within ..⟩

theorem restOfLine (h : Ahead more s t) :
    ∃ line other u v, Source.restOfLine s = .ok line u ∧ Source.restOfLine t = .ok other v ∧
      Ahead more u v := by
  cases h with
  | past path before passed rest =>
    rw [restOfLine_between, restOfLine_between]
    exact ⟨_, _, _, _, rfl, rfl, .past ..⟩
  | within path before rest =>
    rw [restOfLine_between, restOfLine_between]
    by_cases hline : '\n' ∈ rest
    · rw [(Text.line_append_of_mem hline _).1, (Text.line_append_of_mem hline _).2]
      exact ⟨_, _, _, _, rfl, rfl, .within ..⟩
    · rw [Text.afterLine_of_not_mem hline]
      exact ⟨_, _, _, _, rfl, rfl, .past ..⟩

end Ahead

end Source

end Forth
