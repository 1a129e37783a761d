import Forth.Proofs.Source.Text
import Forth.Proofs.Text.Utf8

/-! # Fetching lines from a reader that fails

A buffer asks its reader for a line when a character is needed and none is left.
The reader may fail, and it may report the end of its input and go on later. What
the buffer gives, call by call, is what the source gives that holds everything
the reader would answer.
-/

namespace Forth

/-- What a fetch comes to: the bytes of a line, which are none at the end of the input, or the reason
of a failure. -/
abbrev Fetched := Except String (List UInt8)

namespace Item

section SplitLine

variable {c : Char} {text : List Char}

theorem splitLine_cons (hc : c ≠ '\n') (items : List Item) :
    splitLine (char c :: items) = (char c :: (splitLine items).1, (splitLine items).2) := by
  have hin : isInLine (char c) = true := by simpa [isInLine] using hc
  simp only [splitLine, List.span_eq_takeWhile_dropWhile, List.takeWhile_cons_of_pos hin,
    List.dropWhile_cons_of_pos hin]
  cases items.dropWhile isInLine with
  | nil => rfl
  | cons i rest => cases i <;> rfl

theorem splitLine_newline (items : List Item) :
    splitLine (char '\n' :: items) = ([char '\n'], items) := rfl

theorem splitLine_append_of_not_mem (h : '\n' ∉ text) (items : List Item) :
    splitLine (text.map .char ++ items) =
      (text.map .char ++ (splitLine items).1, (splitLine items).2) := by
  induction text with
  | nil => rfl
  | cons c text ih =>
    have hc : c ≠ '\n' := fun hc => h (hc ▸ List.mem_cons_self)
    rw [List.map_cons, List.cons_append, splitLine_cons hc,
      ih fun hmem => h (List.mem_cons_of_mem c hmem)]
    rfl

end SplitLine

end Item

namespace Reading

/-- Asks for a line, where `line` holds the bytes of it that are read already, last byte first. -/
def fetch (line : List UInt8) : List Reading → Fetched × List Reading
  | [] => (.ok line.reverse, [])
  | byte b :: rest =>
    if b = newline then (.ok (b :: line).reverse, rest) else fetch (b :: line) rest
  | failure reason :: rest => (.error reason, rest)
  | endOfInput :: rest => (.ok line.reverse, rest)

/-- The four ways in which a fetch ends, and what the reader will answer after it. -/
inductive Fetch : List Reading → Fetched → List Reading → Prop
  | line {bytes : List UInt8} (rest : List Reading) : newline ∉ bytes →
      Fetch (chunk bytes ++ byte newline :: rest) (.ok (bytes ++ [newline])) rest
  | paused {bytes : List UInt8} (rest : List Reading) : newline ∉ bytes →
      Fetch (chunk bytes ++ endOfInput :: rest) (.ok bytes) rest
  | finished {bytes : List UInt8} : newline ∉ bytes → Fetch (chunk bytes) (.ok bytes) []
  | failed {bytes : List UInt8} (reason : String) (rest : List Reading) : newline ∉ bytes →
      Fetch (chunk bytes ++ failure reason :: rest) (.error reason) rest

theorem fetch_spec {line : List UInt8} (hline : newline ∉ line) (readings : List Reading) :
    Fetch (chunk line.reverse ++ readings) (fetch line readings).1 (fetch line readings).2 := by
  have hreverse : newline ∉ line.reverse := fun h => hline (List.mem_reverse.mp h)
  induction readings generalizing line with
  | nil =>
    rw [List.append_nil]
    exact .finished hreverse
  | cons reading rest ih =>
    cases reading with
    | failure reason => exact .failed reason rest hreverse
    | endOfInput => exact .paused rest hreverse
    | byte b =>
      rw [fetch]
      split_ifs with hb
      · subst hb
        rw [List.reverse_cons]
        exact .line rest hreverse
      · have hmore : newline ∉ b :: line := List.not_mem_cons_of_ne_of_not_mem (Ne.symm hb) hline
        have hfetch := ih hmore fun h => hmore (List.mem_reverse.mp h)
        rwa [List.reverse_cons, chunk, List.map_append, List.append_assoc] at hfetch

theorem fetch_nil_spec (readings : List Reading) :
    Fetch readings (fetch [] readings).1 (fetch [] readings).2 :=
  fetch_spec (List.not_mem_nil) readings

namespace Fetch

variable {readings left : List Reading} {outcome : Fetched} {bytes : List UInt8} {reason : String}

/-- A fetch that gives something takes something. -/
theorem length_lt (h : Fetch readings outcome left) (hne : outcome ≠ .ok []) :
    left.length < readings.length := by
  cases h with
  | line | paused | failed =>
    simp only [List.length_append, List.length_cons]
    omega
  | @finished bytes _ =>
    have hbytes : bytes ≠ [] := fun h => hne (congrArg Except.ok h)
    simpa [chunk] using List.length_pos_iff.mpr hbytes

theorem itemsFrom_chunk_append (fetched : List UInt8) {bytes : List UInt8} (h : newline ∉ bytes)
    (rest : List Reading) :
    itemsFrom fetched (chunk bytes ++ rest) = itemsFrom (bytes.reverse ++ fetched) rest := by
  induction bytes generalizing fetched with
  | nil => rfl
  | cons b bytes ih =>
    have hb : b ≠ newline := fun hb => h (hb ▸ List.mem_cons_self)
    rw [chunk, List.map_cons, List.cons_append, itemsFrom, if_neg hb, List.reverse_cons,
      List.append_assoc]
    exact ih (b :: fetched) fun hmem => h (List.mem_cons_of_mem b hmem)

theorem itemsFrom_of_error (h : Fetch readings (.error reason) left) :
    itemsFrom [] readings = .fault reason :: itemsFrom [] left := by
  cases h with
  | failed _ _ hbytes => exact itemsFrom_chunk_append [] hbytes _

/-- The line that is fetched is the line of the source, and nothing else is read from it then. -/
theorem itemsFrom_of_ok (h : Fetch readings (.ok bytes) left) :
    ∃ tail, itemsFrom [] readings = (Utf8.decode bytes).map .char ++ tail ∧
      Item.splitLine (itemsFrom [] readings) = ((Utf8.decode bytes).map .char, tail) ∧
      tail.dropWhile Item.isSeam =
        (if bytes = [] then [] else itemsFrom [] left).dropWhile Item.isSeam := by
  cases h with
  | @line bytes _ hbytes =>
    have hlast := Utf8.decode_newline bytes []
    have hitems : itemsFrom [] (chunk bytes ++ byte newline :: left) =
        (Utf8.decode bytes).map .char ++ .char '\n' :: itemsFrom [] left := by
      rw [itemsFrom_chunk_append [] hbytes, List.append_nil, itemsFrom, if_pos rfl, Reading.line,
        List.reverse_cons, List.reverse_reverse, hlast]
      simp
    refine ⟨itemsFrom [] left, ?_, ?_, ?_⟩
    · rw [hitems, hlast]
      simp
    · rw [hitems, Item.splitLine_append_of_not_mem (Utf8.newline_not_mem_decode hbytes),
        Item.splitLine_newline, hlast]
      simp
    · rw [if_neg (List.append_ne_nil_of_right_ne_nil _ (List.cons_ne_nil _ _))]
  | paused _ hbytes =>
    rw [itemsFrom_chunk_append [] hbytes, List.append_nil, itemsFrom]
    cases bytes with
    | nil => exact ⟨[], rfl, rfl, rfl⟩
    | cons b bytes =>
      have hsome : (b :: bytes).reverse.isEmpty = false := by simp
      rw [hsome, if_neg Bool.false_ne_true, Reading.line, List.reverse_reverse]
      refine ⟨.seam :: itemsFrom [] left, rfl, ?_, ?_⟩
      · rw [Item.splitLine_append_of_not_mem (Utf8.newline_not_mem_decode hbytes)]
        exact congrArg (·, _) (List.append_nil _)
      · rw [if_neg (List.cons_ne_nil b bytes)]
        rfl
  | finished hbytes =>
    have hitems : itemsFrom [] (chunk bytes) = (Utf8.decode bytes).map .char := by
      have happend := itemsFrom_chunk_append [] hbytes []
      rw [List.append_nil, List.append_nil] at happend
      rw [happend, itemsFrom, Reading.line, List.reverse_reverse]
    have hsplit := Item.splitLine_append_of_not_mem (Utf8.newline_not_mem_decode hbytes) []
    rw [hitems]
    refine ⟨[], (List.append_nil _).symm, ?_, ?_⟩
    · rw [List.append_nil] at hsplit
      exact hsplit.trans (congrArg (·, []) (List.append_nil _))
    · split_ifs <;> rfl

end Fetch

end Reading

structure ReaderBuffer where
  location : Location
  /-- What is left of the line that was fetched last. -/
  line : List Char := []
  /-- What the reader will still answer. -/
  readings : List Reading
  exhausted : Bool := false
  /-- What the fetches so far came to. -/
  fetched : List Fetched := []
  /-- The characters that were taken so far. -/
  taken : List Char := []

abbrev ReaderM := EStateM Failure ReaderBuffer

namespace ReaderBuffer

/-- The buffer over a reader that was not asked for anything yet. -/
def ofReader (path : String) (readings : List Reading) : ReaderBuffer :=
  { location := Location.start path, readings }

/-- Asks for a line if nothing is left of the last one. The end of the input is final. -/
def fill : ReaderM Unit := fun b =>
  if b.line ≠ [] ∨ b.exhausted = true then .ok () b
  else
    let (outcome, readings) := Reading.fetch [] b.readings
    let asked := { b with readings, fetched := b.fetched ++ [outcome] }
    match outcome with
    | .ok bytes => .ok () { asked with line := Utf8.decode bytes, exhausted := bytes.isEmpty }
    | .error reason => .error { cause := .io reason } asked

/-- Moves the cursor past `run`, which leaves `rest` of the line. -/
def moveBy (b : ReaderBuffer) (run rest : List Char) : ReaderBuffer :=
  { b with location := b.location.advanceBy run, line := rest, taken := b.taken ++ run }

def skip (b : ReaderBuffer) : ReaderBuffer := b.moveBy (b.line.take 1) (b.line.drop 1)

def peek : ReaderM (Option Char) := do
  fill
  return (← get).line.head?

def next : ReaderM (Option Char) := do
  let c ← peek
  modify skip
  return c

def restOfLine : ReaderM (Option String) := do
  match ← peek with
  | none => return none
  | some _ =>
    let line := (← get).line
    modify (·.moveBy (Text.line line) (Text.afterLine line))
    return some (String.ofList (Text.line line))

/-- What it comes to that a character is needed: one was left, or a line is asked for. -/
inductive Peeked (b : ReaderBuffer) : EStateM.Result Failure ReaderBuffer (Option Char) → Prop
  | buffered {c : Char} {more : List Char} : b.line = c :: more → Peeked b (.ok (some c) b)
  | ended : b.line = [] → b.exhausted = true → Peeked b (.ok none b)
  | fetched {c : Char} {more : List Char} {bytes : List UInt8} {left : List Reading} :
      b.line = [] → b.exhausted = false → Reading.Fetch b.readings (.ok bytes) left →
      bytes ≠ [] → Utf8.decode bytes = c :: more →
      Peeked b (.ok (some c)
        { b with line := c :: more, readings := left, fetched := b.fetched ++ [.ok bytes] })
  | finished {left : List Reading} :
      b.line = [] → b.exhausted = false → Reading.Fetch b.readings (.ok []) left →
      Peeked b (.ok none
        { b with readings := left, exhausted := true, fetched := b.fetched ++ [.ok []] })
  | failed {reason : String} {left : List Reading} :
      b.line = [] → b.exhausted = false → Reading.Fetch b.readings (.error reason) left →
      Peeked b (.error { cause := .io reason }
        { b with readings := left, fetched := b.fetched ++ [.error reason] })

/-- Where a character is left, or there will be none, the reader is not asked. -/
theorem peek_of_full {b : ReaderBuffer} (h : b.line ≠ [] ∨ b.exhausted = true) :
    peek b = .ok b.line.head? b :=
  bind_of_ok (if_pos h)

theorem peeked_peek (b : ReaderBuffer) : Peeked b (peek b) := by
  by_cases hfull : b.line ≠ [] ∨ b.exhausted = true
  · rw [peek_of_full hfull]
    cases hline : b.line with
    | nil => exact .ended hline (hfull.resolve_left (not_not.mpr hline))
    | cons c more => exact .buffered hline
  · obtain ⟨location, line, readings, exhausted, fetched, taken⟩ := b
    obtain ⟨hline, hexhausted⟩ := not_or.mp hfull
    obtain rfl : line = [] := not_not.mp hline
    obtain rfl : exhausted = false := Bool.not_eq_true _ ▸ hexhausted
    have hfetch := Reading.fetch_nil_spec readings
    cases h : Reading.fetch [] readings with
    | mk outcome left =>
      rw [h] at hfetch
      cases outcome with
      | error reason =>
        have hfill : fill ⟨location, [], readings, false, fetched, taken⟩ =
            .error { cause := .io reason }
              ⟨location, [], left, false, fetched ++ [.error reason], taken⟩ := by
          simp only [fill, if_neg hfull, h]
        have hpeek := bind_of_error (f := fun _ => do return (← get).line.head?) hfill
        rw [show peek _ = _ from hpeek]
        exact .failed rfl rfl hfetch
      | ok bytes =>
        have hfill : fill ⟨location, [], readings, false, fetched, taken⟩ =
            .ok () ⟨location, Utf8.decode bytes, left, bytes.isEmpty, fetched ++ [.ok bytes],
              taken⟩ := by
          simp only [fill, if_neg hfull, h]
        have hpeek := bind_of_ok (f := fun _ => do return (← get).line.head?) hfill
        rw [show peek _ = _ from hpeek]
        cases bytes with
        | nil => exact .finished rfl rfl hfetch
        | cons x bytes =>
          have hne := List.cons_ne_nil x bytes
          cases hd : Utf8.decode (x :: bytes) with
          | nil => exact absurd hd (Utf8.decode_ne_nil hne)
          | cons c more => exact .fetched rfl rfl hfetch hne hd

theorem head?_of_peek {b c : ReaderBuffer} {x : Option Char} (h : peek b = .ok x c) :
    c.line.head? = x := by
  have hpeeked := peeked_peek b
  rw [h] at hpeeked
  cases hpeeked with
  | buffered hline | ended hline | finished hline => simp [hline]
  | fetched => rfl

theorem exists_line_of_peek {b c : ReaderBuffer} {x : Char} (h : peek b = .ok (some x) c) :
    ∃ more, c.line = x :: more :=
  List.head?_eq_some_iff.mp (head?_of_peek h)

theorem line_of_peek_none {b c : ReaderBuffer} (h : peek b = .ok none c) : c.line = [] :=
  List.head?_eq_none_iff.mp (head?_of_peek h)

/-- Each character that is taken leaves less to read. -/
theorem skip_of_peek {b c : ReaderBuffer} {x : Char} (h : peek b = .ok (some x) c) :
    Prod.Lex (· < ·) (· < ·) (c.skip.readings.length, c.skip.line.length)
      (b.readings.length, b.line.length) := by
  have hpeeked := peeked_peek b
  rw [h] at hpeeked
  cases hpeeked with
  | buffered hline =>
    apply Prod.Lex.right
    simp [skip, moveBy, hline]
  | fetched _ _ hfetch hne => exact .left _ _ (hfetch.length_lt fun heq => hne (Except.ok.inj heq))

/-- Takes characters while they satisfy `p`. -/
def takeWhile (p : Char → Bool) (b : ReaderBuffer) :
    EStateM.Result Failure ReaderBuffer (List Char) :=
  match _h : peek b with
  | .error failure c => .error failure c
  | .ok none c => .ok [] c
  | .ok (some x) c =>
    if p x then
      match takeWhile p c.skip with
      | .ok run d => .ok (x :: run) d
      | .error failure d => .error failure d
    else .ok [] c
termination_by (b.readings.length, b.line.length)
decreasing_by exact skip_of_peek _h

theorem takeWhile_eq (p : Char → Bool) (b : ReaderBuffer) :
    takeWhile p b =
      match peek b with
      | .error failure c => .error failure c
      | .ok none c => .ok [] c
      | .ok (some x) c =>
        if p x then
          match takeWhile p c.skip with
          | .ok run d => .ok (x :: run) d
          | .error failure d => .error failure d
        else .ok [] c := by
  rw [takeWhile]
  cases peek b with
  | error failure c => rfl
  | ok x c => cases x <;> rfl

/-- An induction on the characters that are taken. -/
theorem takeWhile_induction {motive : ReaderBuffer → Prop} (p : Char → Bool)
    (step : ∀ b, (∀ x c, peek b = .ok (some x) c → p x = true → motive c.skip) → motive b)
    (b : ReaderBuffer) : motive b := by
  induction b using takeWhile.induct p with
  | case1 b failure c hpeek | case2 b c hpeek =>
    refine step b fun y d hd => ?_
    rw [hpeek] at hd
    cases hd
  | case3 b x c hpeek _ _ _ _ ih | case4 b x c hpeek _ _ _ _ ih =>
    refine step b fun y d hd _ => ?_
    rw [hpeek] at hd
    cases hd
    exact ih
  | case5 b x c hpeek hstop =>
    refine step b fun y d hd hp => ?_
    rw [hpeek] at hd
    cases hd
    exact absurd hp hstop

def nextToken : ReaderM (Option Token) := do
  let _ ← (takeWhile isBlank : ReaderM (List Char))
  match ← peek with
  | none => return none
  | some _ =>
    let location := (← get).location
    let word ← (takeWhile Text.isLetter : ReaderM (List Char))
    return some { text := String.ofList word, location }

open Source (Operation Reply)

def perform : Operation → ReaderM Reply
  | .peek => do return .char (← peek)
  | .next => do return .char (← next)
  | .restOfLine => do return .line (← restOfLine)
  | .nextToken => do return .token (← nextToken)

/-- The buffer after some operations, whatever their outcomes. -/
def after (b : ReaderBuffer) (operations : List Operation) : ReaderBuffer :=
  operations.foldl (fun b operation => (perform operation b).state) b

def observe : List Operation → ReaderBuffer → List (Except Failure Reply × Location)
  | [], _ => []
  | operation :: more, b =>
    let result := perform operation b
    (result.answer, result.state.location) :: observe more result.state

end ReaderBuffer

end Forth
