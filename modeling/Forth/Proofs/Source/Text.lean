import Forth.Proofs.Source.Cursor
import Forth.Proofs.Source.Operation
import Forth.Proofs.Text.Place

/-! # A cursor in a text

A text has neither faults nor seams, so a cursor in it is given by what was read
and what was not. Each operation moves a part of the text from the second to the
first, and says which.
-/

namespace Forth

namespace Text

def isLetter (c : Char) : Bool := !isBlank c

def gap (text : List Char) : List Char := text.takeWhile isBlank

def word (text : List Char) : List Char := (text.dropWhile isBlank).takeWhile isLetter

def afterWord (text : List Char) : List Char := (text.dropWhile isBlank).dropWhile isLetter

/-- The text through its first newline, or all of it if there is none. -/
def line (text : List Char) : List Char :=
  text.takeWhile (· ≠ '\n') ++ (text.dropWhile (· ≠ '\n')).take 1

def afterLine (text : List Char) : List Char := (text.dropWhile (· ≠ '\n')).drop 1

theorem gap_append_word_append_afterWord (text : List Char) :
    gap text ++ word text ++ afterWord text = text := by
  rw [List.append_assoc, word, afterWord, List.takeWhile_append_dropWhile, gap,
    List.takeWhile_append_dropWhile]

theorem line_append_afterLine (text : List Char) : line text ++ afterLine text = text := by
  rw [line, afterLine, List.append_assoc, List.take_append_drop, List.takeWhile_append_dropWhile]

theorem line_of_not_mem {text : List Char} (h : '\n' ∉ text) : line text = text := by
  have hne : ∀ c ∈ text, decide (c ≠ '\n') = true :=
    fun c hc => decide_eq_true fun heq => h (heq ▸ hc)
  rw [line, List.takeWhile_eq_self_iff.mpr hne, List.dropWhile_eq_nil_iff.mpr hne, List.take_nil,
    List.append_nil]

theorem line_append_newline {text : List Char} (h : '\n' ∉ text) (rest : List Char) :
    line (text ++ '\n' :: rest) = text ++ ['\n'] := by
  have hne : ∀ c ∈ text, decide (c ≠ '\n') = true :=
    fun c hc => decide_eq_true fun heq => h (heq ▸ hc)
  rw [line, List.takeWhile_append_of_pos hne, List.dropWhile_append_of_pos hne]
  simp

theorem line_cons (c : Char) (text : List Char) :
    line (c :: text) = if c = '\n' then ['\n'] else c :: line text := by
  by_cases hc : c = '\n'
  · subst hc
    rfl
  · simp [line, hc]

theorem head?_line (text : List Char) : (line text).head? = text.head? := by
  cases text with
  | nil => rfl
  | cons c text =>
    rw [line_cons]
    split_ifs with hc
    · rw [hc]
      rfl
    · rfl

theorem line_eq_nil_iff {text : List Char} : line text = [] ↔ text = [] := by
  rw [← List.head?_eq_none_iff, head?_line, List.head?_eq_none_iff]

theorem line_line (text : List Char) : line (line text) = line text := by
  induction text with
  | nil => rfl
  | cons c text ih =>
    rw [line_cons]
    split_ifs with hc
    · rfl
    · rw [line_cons, if_neg hc, ih]

theorem afterLine_line (text : List Char) : afterLine (line text) = [] := by
  have h := line_append_afterLine (line text)
  rw [line_line] at h
  exact List.append_right_eq_self.mp h

end Text

namespace Item

theorem chars_map_char (text : List Char) : chars (text.map .char) = text := by
  induction text with
  | nil => rfl
  | cons c text ih => exact congrArg (c :: ·) ih

theorem takeWhile_isGap_map_char (text : List Char) :
    (text.map Item.char).takeWhile isGap = (text.takeWhile isBlank).map .char :=
  List.takeWhile_map ..

theorem dropWhile_isGap_map_char (text : List Char) :
    (text.map Item.char).dropWhile isGap = (text.dropWhile isBlank).map .char :=
  List.dropWhile_map ..

theorem gap_map_char (text : List Char) : gap (text.map .char) = (Text.gap text).map .char :=
  takeWhile_isGap_map_char text

theorem word_map_char (text : List Char) : word (text.map .char) = (Text.word text).map .char := by
  rw [word, dropWhile_isGap_map_char]
  exact List.takeWhile_map ..

theorem afterWord_map_char (text : List Char) :
    afterWord (text.map .char) = (Text.afterWord text).map .char := by
  rw [afterWord, dropWhile_isGap_map_char]
  exact List.dropWhile_map ..

theorem splitLine_map_char (text : List Char) :
    splitLine (text.map .char) = ((Text.line text).map .char, (Text.afterLine text).map .char) := by
  have hline : (text.map Item.char).takeWhile isInLine = (text.takeWhile (· ≠ '\n')).map .char :=
    List.takeWhile_map ..
  have hrest : (text.map Item.char).dropWhile isInLine = (text.dropWhile (· ≠ '\n')).map .char :=
    List.dropWhile_map ..
  rw [splitLine, List.span_eq_takeWhile_dropWhile, hline, hrest, Text.line, Text.afterLine]
  cases text.dropWhile (· ≠ '\n') with
  | nil => simp
  | cons c rest => simp

end Item

namespace Source

/-- The source called `path` whose cursor stands between the two parts of its text. -/
def between (path : String) (before rest : List Char) : Source where
  location := Location.behind path before
  unread := rest.map .char

theorem ofText_eq_between (path text : String) : ofText path text = between path [] text.toList :=
  rfl

section Between

variable (path : String) (before rest : List Char)

theorem moveBy_between (taken left : List Char) :
    (between path before rest).moveBy (taken.map .char) (left.map .char) =
      between path (before ++ taken) left := by
  simp only [moveBy, between, Item.chars_map_char, Location.advanceBy_behind]

theorem peek_between :
    peek (between path before rest) = .ok rest.head? (between path before rest) := by
  cases rest <;> rfl

theorem next_between :
    next (between path before rest) =
      .ok rest.head? (between path (before ++ rest.take 1) (rest.drop 1)) := by
  refine (bind_of_ok (peek_between path before rest)).trans ?_
  rw [← moveBy_between path before rest, List.map_take, List.map_drop]
  rfl

theorem restOfLine_between :
    restOfLine (between path before rest) =
      .ok (if rest = [] then none else some (String.ofList (Text.line rest)))
        (between path (before ++ Text.line rest) (Text.afterLine rest)) := by
  cases rest with
  | nil => simp [restOfLine_of_nil, between, Text.line, Text.afterLine]
  | cons c rest =>
    have hline := Item.splitLine_map_char (c :: rest)
    rw [restOfLine_of_char (s := between path before (c :: rest)) rfl,
      if_neg (List.cons_ne_nil c rest)]
    change EStateM.Result.ok (some (String.ofList (Item.chars
      (Item.splitLine ((c :: rest).map Item.char)).1)))
      ((between path before (c :: rest)).moveBy (Item.splitLine ((c :: rest).map Item.char)).1
        (Item.splitLine ((c :: rest).map Item.char)).2) = _
    rw [hline, Item.chars_map_char, moveBy_between]

theorem atWord_between :
    (between path before rest).atWord =
      between path (before ++ Text.gap rest) (rest.dropWhile isBlank) := by
  rw [← moveBy_between path before rest, ← Item.dropWhile_isGap_map_char, ← Item.gap_map_char]
  rfl

theorem pastWord_between :
    (between path before rest).pastWord =
      between path (before ++ Text.gap rest ++ Text.word rest) (Text.afterWord rest) := by
  rw [List.append_assoc, ← moveBy_between path before rest, List.map_append,
    ← Item.afterWord_map_char, ← Item.gap_map_char, ← Item.word_map_char]
  rfl

theorem wordToken_between :
    (between path before rest).wordToken =
      { text := String.ofList (Text.word rest),
        location := Location.behind path (before ++ Text.gap rest) } := by
  have htext : Item.wordText (rest.map .char) = String.ofList (Text.word rest) := by
    rw [Item.wordText, Item.word_map_char, Item.chars_map_char]
  rw [wordToken, atWord_between]
  exact congrArg (Token.mk · _) htext

/-- Where there is no token, all that is left is white space. -/
theorem word_eq_nil_iff : Text.word rest = [] ↔ ∀ c ∈ rest, isBlank c = true := by
  rw [← List.dropWhile_eq_nil_iff]
  have hhead := List.head?_dropWhile_not isBlank rest
  cases hd : rest.dropWhile isBlank with
  | nil => simp [Text.word, hd]
  | cons c more =>
    have hc : isBlank c = false := by simpa [hd] using hhead
    simp [Text.word, hd, Text.isLetter, hc]

theorem nextToken_between :
    nextToken (between path before rest) =
      .ok
        (if Text.word rest = [] then none
        else some
          { text := String.ofList (Text.word rest),
            location := Location.behind path (before ++ Text.gap rest) })
        (between path (before ++ Text.gap rest ++ Text.word rest) (Text.afterWord rest)) := by
  cases hd : rest.dropWhile isBlank with
  | nil =>
    have hword : Text.word rest = [] := by rw [Text.word, hd]; rfl
    have hafter : Text.afterWord rest = [] := by rw [Text.afterWord, hd]; rfl
    have hgap : (between path before rest).unread.dropWhile Item.isGap = [] := by
      rw [between, Item.dropWhile_isGap_map_char, hd, List.map_nil]
    rw [nextToken_of_nil hgap, atWord_between, hd, if_pos hword, hword, hafter, List.append_nil]
  | cons c more =>
    have hword : Text.word rest ≠ [] := by
      rw [Ne, word_eq_nil_iff, ← List.dropWhile_eq_nil_iff, hd]
      exact List.cons_ne_nil c more
    have hgap : (between path before rest).unread.dropWhile Item.isGap =
        .char c :: more.map .char := by
      rw [between, Item.dropWhile_isGap_map_char, hd, List.map_cons]
    rw [nextToken_of_char hgap, pastWord_between, wordToken_between, if_neg hword]
    -- in a text no fault is met behind the token
    exact bind_of_ok (peek_between ..)

end Between

end Source

end Forth
