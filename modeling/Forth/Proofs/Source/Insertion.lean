import Forth.Proofs.Dictionary.Binding
import Forth.Proofs.Source.Extension

/-! # A comment at the end of a line

Two cursors move through a text and through one that has a comment more at the
end of a line. They find the same tokens up to the comment, and once it is read
they are at the same place, since a place counts columns from the last newline.
-/

namespace Forth

namespace Text

variable {text more : List Char}

theorem gap_append_of_blank (h : ∀ c ∈ text, isBlank c = true) (more : List Char) :
    gap (text ++ more) = text ++ gap more :=
  List.takeWhile_append_of_pos h

theorem word_append_of_blank (h : ∀ c ∈ text, isBlank c = true) (more : List Char) :
    word (text ++ more) = word more := by
  rw [word, List.dropWhile_append_of_pos h, word]

theorem afterWord_append_of_blank (h : ∀ c ∈ text, isBlank c = true) (more : List Char) :
    afterWord (text ++ more) = afterWord more := by
  rw [afterWord, List.dropWhile_append_of_pos h, afterWord]

/-- What is put at the end of a line to add a comment. -/
def commented (c : List Char) : List Char := ' ' :: '\\' :: ' ' :: c

theorem newline_not_mem_commented {c : List Char} (hc : '\n' ∉ c) : '\n' ∉ commented c := by
  simpa [commented] using hc

theorem afterLine_append_newline (h : '\n' ∉ text) (more : List Char) :
    afterLine (text ++ '\n' :: more) = more := by
  have hline := line_append_afterLine (text ++ '\n' :: more)
  rw [line_append_newline h] at hline
  simpa using hline

end Text

namespace Source

/-- Behind a newline, a cursor is where it is because of the lines in front of it. -/
theorem between_newline (path : String) {text other : List Char} (more : List Char)
    (h : text.count '\n' = other.count '\n') :
    between path (text ++ ['\n']) more = between path (other ++ ['\n']) more := by
  have hplace : Location.behind path (text ++ ['\n']) = Location.behind path (other ++ ['\n']) := by
    rw [Location.behind_concat, Location.behind_concat, Location.behind, Location.behind, h]
    simp [Location.advance]
  rw [between, between, hplace]

/-- White space in front of the cursor does not matter to what is read next. -/
theorem nextToken_append_of_blank (path : String) (before : List Char) {text : List Char}
    (h : ∀ c ∈ text, isBlank c = true) (more : List Char) :
    nextToken (between path before (text ++ more)) =
      nextToken (between path (before ++ text) more) := by
  simp only [nextToken_between, Text.gap_append_of_blank h, Text.word_append_of_blank h,
    Text.afterWord_append_of_blank h, List.append_assoc]

/-- What stands behind a white space does not matter to the token in front of it. -/
theorem nextToken_append_blank (path : String) (before : List Char) {text : List Char} {stop : Char}
    (hs : isBlank stop = true) (hword : Text.word text ≠ []) (more : List Char) :
    nextToken (between path before (text ++ stop :: more)) =
      .ok (some (between path before text).wordToken)
        (between path (before ++ Text.gap text ++ Text.word text)
          (Text.afterWord text ++ stop :: more)) := by
  rw [nextToken_between, Text.word_append_blank hs hword, if_neg hword, Text.gap_append hword,
    Text.afterWord_append_blank hs hword, wordToken_between]

/-- How the cursor in a text stands to the one in the text with the comment more. They are both in
front of the comment, or at the same place behind it. -/
inductive Commented (c more : List Char) : Source → Source → Prop
  | before (path : String) (passed rest : List Char) :
      Commented c more (between path passed (rest ++ '\n' :: more))
        (between path passed (rest ++ (Text.commented c ++ '\n' :: more)))
  | after (path : String) (passed rest : List Char) :
      Commented c more (between path passed rest) (between path passed rest)

/-- The second cursor is behind the comment, and the first one in front of what is left of the line,
which is white space. -/
inductive Crossing (more : List Char) : Source → Source → Prop
  | mk (path : String) (passed : List Char) {rest : List Char} :
      (∀ c ∈ rest, isBlank c = true) →
      Crossing more (between path passed (rest ++ '\n' :: more))
        (between path (passed ++ rest ++ ['\n']) more)

section Commented

variable {c more : List Char} {a b : Source}

theorem nextToken_cases (path : String) (passed rest : List Char) :
    (∃ before, nextToken (between path passed rest) = .ok none (between path before [])) ∨
      ∃ t before after, nextToken (between path passed rest) =
        .ok (some t) (between path before after) := by
  by_cases hword : Text.word rest = []
  · have hafter : Text.afterWord rest = [] := by
      have hblank := (word_eq_nil_iff rest).mp hword
      rw [Text.afterWord, List.dropWhile_eq_nil_iff.mpr hblank, List.dropWhile_nil]
    rw [nextToken_between, if_pos hword, hafter]
    exact .inl ⟨_, rfl⟩
  · rw [nextToken_between, if_neg hword]
    exact .inr ⟨_, _, _, rfl⟩

theorem Crossing.nextToken_eq (h : Crossing more a b) : nextToken a = nextToken b := by
  cases h with
  | @mk path passed rest hrest =>
    have hblank : ∀ c ∈ rest ++ ['\n'], isBlank c = true := by
      intro c hc
      rcases List.mem_append.mp hc with hc | hc
      · exact hrest c hc
      · rw [List.mem_singleton.mp hc]
        exact isBlank_newline
    simpa using nextToken_append_of_blank path passed hblank more

/-- The cursor that stands in front of the comment reads it, and is behind it then. -/
theorem nextToken_commented (path : String) (passed : List Char) {rest : List Char}
    (hc : '\n' ∉ c) (hrest : ∀ x ∈ rest, isBlank x = true) (more : List Char) :
    ∃ t d line, t.text = Dictionary.commentName ∧
      nextToken (between path passed (rest ++ (Text.commented c ++ '\n' :: more))) =
        .ok (some t) d ∧
      restOfLine d = .ok line (between path (passed ++ rest ++ ['\n']) more) := by
  let left := ' ' :: c ++ '\n' :: more
  have hword : Text.word (Text.commented c ++ '\n' :: more) = ['\\'] := rfl
  have hgap : Text.gap (Text.commented c ++ '\n' :: more) = [' '] := rfl
  have hafter : Text.afterWord (Text.commented c ++ '\n' :: more) = left := rfl
  have hline : '\n' ∉ ' ' :: c := by simpa using hc
  have hcount : (passed ++ rest ++ [' '] ++ ['\\'] ++ ' ' :: c).count '\n' =
      (passed ++ rest).count '\n' := by
    simp [List.count_eq_zero.mpr hc]
  have hread := restOfLine_between path (passed ++ rest ++ [' '] ++ ['\\']) left
  rw [Text.line_append_newline hline, Text.afterLine_append_newline hline, ← List.append_assoc,
    between_newline path more hcount] at hread
  let t : Token :=
    { text := String.ofList ['\\'], location := Location.behind path (passed ++ rest ++ [' ']) }
  refine ⟨t, _, _, rfl, ?_, hread⟩
  rw [nextToken_append_of_blank path passed hrest, nextToken_between, hword, hgap, hafter]
  rfl

/-- Both find the same token, unless the comment is next. -/
theorem Commented.nextToken_cases (h : Commented c more a b) :
    (∃ path passed, nextToken a = .ok none (between path passed []) ∧
      nextToken b = .ok none (between path passed [])) ∨
      (∃ t d e, nextToken a = .ok (some t) d ∧ nextToken b = .ok (some t) e ∧
        Commented c more d e) ∨
      ∃ path passed rest, (∀ x ∈ rest, isBlank x = true) ∧
        a = between path passed (rest ++ '\n' :: more) ∧
        b = between path passed (rest ++ (Text.commented c ++ '\n' :: more)) := by
  cases h with
  | after path passed rest =>
    obtain ⟨before, hnone⟩ | ⟨t, before, after, htoken⟩ := Source.nextToken_cases path passed rest
    · exact .inl ⟨path, before, hnone, hnone⟩
    · exact .inr (.inl ⟨t, _, _, htoken, htoken, .after path before after⟩)
  | before path passed rest =>
    by_cases hword : Text.word rest = []
    · exact .inr (.inr ⟨path, passed, rest, (word_eq_nil_iff rest).mp hword, rfl, rfl⟩)
    · exact .inr (.inl ⟨_, _, _, nextToken_append_blank path passed isBlank_newline hword more,
        nextToken_append_blank path passed (by decide) hword _, .before ..⟩)

theorem Commented.restOfLine (hc : '\n' ∉ c) (h : Commented c more a b) :
    ∃ x y d e, Source.restOfLine a = .ok x d ∧ Source.restOfLine b = .ok y e ∧
      Commented c more d e := by
  cases h with
  | after path passed rest =>
    rw [restOfLine_between]
    exact ⟨_, _, _, _, rfl, rfl, .after ..⟩
  | before path passed rest =>
    rw [restOfLine_between, restOfLine_between]
    by_cases hline : '\n' ∈ rest
    · rw [(Text.line_append_of_mem hline _).1, (Text.line_append_of_mem hline _).2,
        (Text.line_append_of_mem hline _).1, (Text.line_append_of_mem hline _).2]
      exact ⟨_, _, _, _, rfl, rfl, .before ..⟩
    · have hcomment : '\n' ∉ rest ++ Text.commented c := by
        simp [hline, Text.newline_not_mem_commented hc]
      have hcount : (passed ++ rest).count '\n' =
          (passed ++ (rest ++ Text.commented c)).count '\n' := by
        simp [List.count_eq_zero.mpr (Text.newline_not_mem_commented hc)]
      have hsame := between_newline path more hcount
      rw [Text.line_append_newline hline, Text.afterLine_append_newline hline, ← List.append_assoc,
        ← List.append_assoc rest, Text.line_append_newline hcomment,
        Text.afterLine_append_newline hcomment, ← List.append_assoc, hsame]
      exact ⟨_, _, _, _, rfl, rfl, .after ..⟩

end Commented

end Source

end Forth
