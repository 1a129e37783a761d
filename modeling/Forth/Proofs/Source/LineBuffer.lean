import Forth.Proofs.Source.Text
import Forth.Proofs.Text.Utf8

/-! # Reading on demand

A line buffer asks its reader for the next line only when a character is needed
and none is left. The reader hands over its bytes in pieces, whose ends may fall
anywhere. What can be seen is the decoded text as a whole.
-/

namespace Forth

open Reading (newline)

structure LineBuffer where
  location : Location
  /-- What is left of the line that was fetched last. -/
  line : List Char := []
  /-- What the reader still hands over, piece by piece. -/
  chunks : List (List UInt8)
  exhausted : Bool := false

namespace LineBuffer

/-- The bytes through the next newline, from as many pieces as it takes, and what is left. -/
def fetch : List (List UInt8) → List UInt8 × List (List UInt8)
  | [] => ([], [])
  | chunk :: rest =>
    match chunk.dropWhile (· ≠ newline) with
    | [] => (chunk ++ (fetch rest).1, (fetch rest).2)
    | b :: behind => (chunk.takeWhile (· ≠ newline) ++ [b], behind :: rest)

def fill (b : LineBuffer) : LineBuffer :=
  if b.line ≠ [] ∨ b.exhausted = true then b
  else if (fetch b.chunks).1 = [] then { b with chunks := (fetch b.chunks).2, exhausted := true }
  else { b with chunks := (fetch b.chunks).2, line := Utf8.decode (fetch b.chunks).1 }

/-- Moves the cursor past `taken`, which leaves `rest` of the line. -/
def moveBy (b : LineBuffer) (taken rest : List Char) : LineBuffer :=
  { b with location := b.location.advanceBy taken, line := rest }

def peek (b : LineBuffer) : Option Char × LineBuffer :=
  (b.fill.line.head?, b.fill)

def next (b : LineBuffer) : Option Char × LineBuffer :=
  (b.fill.line.head?, b.fill.moveBy (b.fill.line.take 1) (b.fill.line.drop 1))

def restOfLine (b : LineBuffer) : Option String × LineBuffer :=
  (if b.fill.line = [] then none else some (String.ofList (Text.line b.fill.line)),
    b.fill.moveBy (Text.line b.fill.line) (Text.afterLine b.fill.line))

/-- What the reader and the line still hold, as text. -/
def unread (b : LineBuffer) : List Char :=
  b.line ++ if b.exhausted then [] else Utf8.decode b.chunks.flatten

theorem fetch_cases (chunks : List (List UInt8)) :
    (fetch chunks).1 ++ (fetch chunks).2.flatten = chunks.flatten ∧
      (newline ∉ (fetch chunks).1 ∧ (fetch chunks).2.flatten = [] ∨
        ∃ bytes, (fetch chunks).1 = bytes ++ [newline] ∧ newline ∉ bytes) := by
  induction chunks with
  | nil => exact ⟨rfl, .inl ⟨nofun, rfl⟩⟩
  | cons chunk rest ih =>
    obtain ⟨hall, hend⟩ := ih
    have hstart : newline ∉ chunk.takeWhile (· ≠ newline) := by
      intro h
      have hne := List.mem_takeWhile_imp h
      simp at hne
    have hchunk := List.takeWhile_append_dropWhile (p := (· ≠ newline)) (l := chunk)
    have hhead := List.head?_dropWhile_not (fun b => decide (b ≠ newline)) chunk
    rw [fetch]
    cases hd : chunk.dropWhile (· ≠ newline) with
    | nil =>
      rw [hd, List.append_nil] at hchunk
      rw [hchunk] at hstart
      constructor
      · rw [List.append_assoc, hall, List.flatten_cons]
      · obtain ⟨hfirst, hrest⟩ | ⟨bytes, hbytes, hno⟩ := hend
        · refine .inl ⟨fun h => ?_, hrest⟩
          exact (List.mem_append.mp h).elim hstart hfirst
        · refine .inr ⟨chunk ++ bytes, ?_, fun h => ?_⟩
          · rw [hbytes, List.append_assoc]
          · exact (List.mem_append.mp h).elim hstart hno
    | cons b behind =>
      rw [hd] at hhead hchunk
      have hb : b = newline := by simpa using hhead
      subst hb
      refine ⟨?_, .inr ⟨_, rfl, hstart⟩⟩
      rw [List.flatten_cons, List.flatten_cons, List.append_assoc, List.singleton_append,
        ← List.cons_append, ← List.append_assoc, hchunk]

/-- The buffered line goes through the next newline of the text. -/
def Aligned (b : LineBuffer) : Prop := b.line ≠ [] → b.line = Text.line b.unread

/-- What is fetched decodes to the first line of the text, and the rest to the rest of it. -/
theorem decode_fetch (chunks : List (List UInt8)) :
    Utf8.decode chunks.flatten =
        Utf8.decode (fetch chunks).1 ++ Utf8.decode (fetch chunks).2.flatten ∧
      Text.line (Utf8.decode chunks.flatten) = Utf8.decode (fetch chunks).1 := by
  obtain ⟨hall, ⟨hno, hrest⟩ | ⟨bytes, hbytes, hno⟩⟩ := fetch_cases chunks
  · rw [← hall, hrest, List.append_nil, Utf8.decode_nil, List.append_nil]
    exact ⟨rfl, Text.line_of_not_mem (Utf8.newline_not_mem_decode hno)⟩
  · have hlast := Utf8.decode_newline bytes []
    have hsplit := Utf8.decode_newline bytes (fetch chunks).2.flatten
    rw [← hall, hbytes, List.append_assoc, List.singleton_append, hsplit, hlast]
    exact ⟨by simp, Text.line_append_newline (Utf8.newline_not_mem_decode hno) _⟩

theorem decode_of_fetch_eq_nil {chunks : List (List UInt8)} (h : (fetch chunks).1 = []) :
    Utf8.decode chunks.flatten = [] := by
  rw [← Text.line_eq_nil_iff, (decode_fetch chunks).2, h, Utf8.decode_nil]

theorem unread_fill (b : LineBuffer) : b.fill.unread = b.unread := by
  rw [fill]
  split_ifs with hbusy hnone
  · rfl
  all_goals
    obtain ⟨hline, hmore⟩ := not_or.mp hbusy
    rw [not_not] at hline
  · simp [unread, hline, hmore, decode_of_fetch_eq_nil hnone]
  · simp [unread, hline, hmore, (decode_fetch b.chunks).1]

theorem location_fill (b : LineBuffer) : b.fill.location = b.location := by
  rw [fill]
  split_ifs <;> rfl

theorem line_fill {b : LineBuffer} (h : b.Aligned) : b.fill.line = Text.line b.unread := by
  rw [fill]
  split_ifs with hbusy hnone
  · by_cases hline : b.line = []
    · rw [hline, unread, hline, hbusy.resolve_left (· hline)]
      rfl
    · exact h hline
  all_goals
    obtain ⟨hline, hmore⟩ := not_or.mp hbusy
    rw [not_not] at hline
  · rw [unread, hline, if_neg hmore, decode_of_fetch_eq_nil hnone]
    rfl
  · rw [unread, hline, if_neg hmore, List.nil_append, (decode_fetch b.chunks).2]

theorem length_unread_next_lt {b : LineBuffer} {c : Char} {line : List Char}
    (h : b.fill.line = c :: line) : b.next.2.unread.length < b.unread.length := by
  rw [← unread_fill b, next, unread, unread, moveBy, h]
  simp

def skipBlanks (b : LineBuffer) : LineBuffer :=
  match _h : b.fill.line with
  | [] => b.fill
  | c :: _ => if isBlank c then skipBlanks b.next.2 else b.fill
termination_by b.unread.length
decreasing_by exact length_unread_next_lt _h

/-- The letters up to the next white space, which stays unread. -/
def takeWord (b : LineBuffer) : List Char × LineBuffer :=
  match _h : b.fill.line with
  | [] => ([], b.fill)
  | c :: _ =>
    if isBlank c then ([], b.fill)
    else
      let (word, rest) := takeWord b.next.2
      (c :: word, rest)
termination_by b.unread.length
decreasing_by exact length_unread_next_lt _h

def nextToken (b : LineBuffer) : Option Token × LineBuffer :=
  match b.skipBlanks.peek with
  | (none, b) => (none, b)
  | (some _, b) =>
    let (word, rest) := b.takeWord
    (some { text := String.ofList word, location := b.location }, rest)

/-- The buffer stands behind `before` and in front of `rest` in a text. -/
structure At (path : String) (before rest : List Char) (b : LineBuffer) : Prop where
  location : b.location = Location.behind path before
  unread : b.unread = rest
  aligned : b.Aligned

namespace At

variable {path : String} {before rest : List Char} {b : LineBuffer}

theorem line_fill (h : b.At path before rest) : b.fill.line = Text.line rest := by
  rw [LineBuffer.line_fill h.aligned, h.unread]

theorem fill (h : b.At path before rest) : b.fill.At path before rest := by
  refine ⟨b.location_fill.trans h.location, b.unread_fill.trans h.unread, fun _ => ?_⟩
  rw [LineBuffer.line_fill h.aligned, b.unread_fill]

/-- Taking a part of the line leaves the rest of it in the buffer. -/
theorem moveBy {taken keep left : List Char} (h : b.At path before (taken ++ left))
    (hline : b.line = taken ++ keep) (hkeep : keep ≠ [] → keep = Text.line left) :
    (b.moveBy taken keep).At path (before ++ taken) left := by
  have hunread : (b.moveBy taken keep).unread = left := by
    have hall := h.unread
    rw [LineBuffer.unread, hline, List.append_assoc] at hall
    exact List.append_cancel_left hall
  refine ⟨?_, hunread, fun hne => ?_⟩
  · rw [LineBuffer.moveBy, h.location, Location.advanceBy_behind]
  · rw [hunread]
    exact hkeep hne

theorem peek (h : b.At path before rest) :
    b.peek.1 = rest.head? ∧ b.peek.2.At path before rest := by
  refine ⟨?_, h.fill⟩
  rw [LineBuffer.peek, h.line_fill, Text.head?_line]

theorem next (h : b.At path before rest) :
    b.next.1 = rest.head? ∧ b.next.2.At path (before ++ rest.take 1) (rest.drop 1) := by
  have hline := h.line_fill
  constructor
  · rw [LineBuffer.next, hline, Text.head?_line]
  · rw [LineBuffer.next, hline]
    cases rest with
    | nil => exact h.fill.moveBy (hline.trans rfl) (absurd rfl)
    | cons c left =>
      rw [Text.line_cons] at hline ⊢
      have hfill : b.fill.At path before ([c] ++ left) := h.fill
      by_cases hc : c = '\n'
      · rw [if_pos hc, ← hc] at hline ⊢
        exact hfill.moveBy hline (absurd rfl)
      · rw [if_neg hc] at hline ⊢
        exact hfill.moveBy hline fun _ => rfl

theorem restOfLine (h : b.At path before rest) :
    b.restOfLine.1 = (if rest = [] then none else some (String.ofList (Text.line rest))) ∧
      b.restOfLine.2.At path (before ++ Text.line rest) (Text.afterLine rest) := by
  have hline := h.line_fill
  have hsplit := Text.line_append_afterLine rest
  constructor
  · rw [LineBuffer.restOfLine, hline, Text.line_line]
    simp only [Text.line_eq_nil_iff]
  · have hfill := h.fill
    rw [← hsplit] at hfill
    rw [LineBuffer.restOfLine, hline, Text.line_line, Text.afterLine_line]
    exact hfill.moveBy (hline.trans (List.append_nil _).symm) (absurd rfl)

theorem fill_eq_nil (h : b.At path before []) : b.fill.line = [] := h.line_fill

theorem exists_fill_eq_cons {c : Char} (h : b.At path before (c :: rest)) :
    ∃ line, b.fill.line = c :: line := by
  rw [h.line_fill, Text.line_cons]
  split_ifs with hc
  · exact ⟨[], by rw [hc]⟩
  · exact ⟨_, rfl⟩

theorem skipBlanks (h : b.At path before rest) :
    b.skipBlanks.At path (before ++ Text.gap rest) (rest.dropWhile isBlank) := by
  induction rest generalizing before b with
  | nil =>
    rw [LineBuffer.skipBlanks]
    split
    case h_1 => simpa [Text.gap] using h.fill
    case h_2 hline =>
      rw [h.fill_eq_nil] at hline
      cases hline
  | cons c rest ih =>
    obtain ⟨line, hcons⟩ := h.exists_fill_eq_cons
    rw [LineBuffer.skipBlanks]
    split
    case h_1 hline =>
      rw [hcons] at hline
      cases hline
    case h_2 hline =>
      rw [hcons] at hline
      cases hline
      split_ifs with hc
      · have hnext := ih h.next.2
        rw [List.append_assoc] at hnext
        simpa [Text.gap, hc] using hnext
      · simpa [Text.gap, hc] using h.fill

theorem takeWord (h : b.At path before rest) :
    b.takeWord.1 = rest.takeWhile Text.isLetter ∧
      b.takeWord.2.At path (before ++ rest.takeWhile Text.isLetter)
        (rest.dropWhile Text.isLetter) := by
  induction rest generalizing before b with
  | nil =>
    rw [LineBuffer.takeWord]
    split
    case h_1 => simpa using h.fill
    case h_2 hline =>
      rw [h.fill_eq_nil] at hline
      cases hline
  | cons c rest ih =>
    obtain ⟨line, hcons⟩ := h.exists_fill_eq_cons
    rw [LineBuffer.takeWord]
    split
    case h_1 hline =>
      rw [hcons] at hline
      cases hline
    case h_2 hline =>
      rw [hcons] at hline
      cases hline
      split_ifs with hc
      · simpa [Text.isLetter, hc] using h.fill
      · obtain ⟨hword, hnext⟩ := ih h.next.2
        rw [List.append_assoc] at hnext
        simp only [Text.isLetter, hc, List.takeWhile_cons, List.dropWhile_cons]
        exact ⟨congrArg (c :: ·) hword, hnext⟩

theorem nextToken (h : b.At path before rest) :
    b.nextToken.1 =
        (if Text.word rest = [] then none
        else some
          { text := String.ofList (Text.word rest),
            location := Location.behind path (before ++ Text.gap rest) }) ∧
      b.nextToken.2.At path (before ++ Text.gap rest ++ Text.word rest) (Text.afterWord rest) := by
  obtain ⟨hpeek, hfill⟩ := h.skipBlanks.peek
  have hhead := List.head?_dropWhile_not isBlank rest
  rw [LineBuffer.nextToken]
  cases hp : b.skipBlanks.peek with
  | mk c filled =>
    rw [hp] at hpeek hfill
    cases hd : rest.dropWhile isBlank with
    | nil =>
      rw [hd] at hpeek hfill
      obtain rfl : c = none := hpeek
      have hword : Text.word rest = [] := by rw [Text.word, hd]; rfl
      have hafter : Text.afterWord rest = [] := by rw [Text.afterWord, hd]; rfl
      rw [if_pos hword, hword, hafter, List.append_nil]
      exact ⟨rfl, hfill⟩
    | cons d more =>
      rw [hd] at hpeek hhead
      obtain rfl : c = some d := hpeek
      have hword : Text.word rest ≠ [] := by
        have hd' : isBlank d = false := by simpa using hhead
        simp [Text.word, hd, Text.isLetter, hd']
      obtain ⟨htake, hrest⟩ := hfill.takeWord
      rw [if_neg hword]
      refine ⟨?_, hrest⟩
      have htext : filled.takeWord.1 = Text.word rest := htake
      have hplace : filled.location = Location.behind path (before ++ Text.gap rest) :=
        hfill.location
      rw [← htext, ← hplace]

end At

open Source (Operation Reply)

def perform : Operation → LineBuffer → Reply × LineBuffer
  | .peek, b => (.char b.peek.1, b.peek.2)
  | .next, b => (.char b.next.1, b.next.2)
  | .restOfLine, b => (.line b.restOfLine.1, b.restOfLine.2)
  | .nextToken, b => (.token b.nextToken.1, b.nextToken.2)

def observe : List Operation → LineBuffer → List (Except Failure Reply × Location)
  | [], _ => []
  | operation :: more, b =>
    let result := perform operation b
    (.ok result.1, result.2.location) :: observe more result.2

theorem At.perform {path : String} {before rest : List Char} {b : LineBuffer}
    (h : b.At path before rest) (operation : Operation) :
    ∃ taken left, (perform operation b).2.At path taken left ∧
      Source.perform operation (Source.between path before rest) =
        .ok (perform operation b).1 (Source.between path taken left) := by
  cases operation with
  | peek =>
    refine ⟨_, _, h.peek.2, ?_⟩
    rw [LineBuffer.perform, h.peek.1]
    exact bind_of_ok (Source.peek_between path before rest)
  | next =>
    refine ⟨_, _, h.next.2, ?_⟩
    rw [LineBuffer.perform, h.next.1]
    exact bind_of_ok (Source.next_between path before rest)
  | restOfLine =>
    refine ⟨_, _, h.restOfLine.2, ?_⟩
    rw [LineBuffer.perform, h.restOfLine.1]
    exact bind_of_ok (Source.restOfLine_between path before rest)
  | nextToken =>
    refine ⟨_, _, h.nextToken.2, ?_⟩
    rw [LineBuffer.perform, h.nextToken.1]
    exact bind_of_ok (Source.nextToken_between path before rest)

theorem At.observe {path : String} {before rest : List Char} {b : LineBuffer}
    (h : b.At path before rest) (operations : List Operation) :
    observe operations b = Source.observe operations (Source.between path before rest) := by
  induction operations generalizing before rest b with
  | nil => rfl
  | cons operation more ih =>
    obtain ⟨taken, left, hnext, hperform⟩ := h.perform operation
    rw [LineBuffer.observe, Source.observe, hperform, ih hnext, hnext.location]
    rfl

end LineBuffer

end Forth
