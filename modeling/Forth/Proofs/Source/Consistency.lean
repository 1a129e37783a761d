import Forth.Proofs.Source.Fetching

/-! # A buffer over a faulty reader stays consistent

Whatever is asked of a buffer, and wherever its reader fails or reports the end
of its input, what was taken and what is left of the line are the lines that
were fetched, and the location is that behind what was taken. Each failure of the
reader is returned once.
-/

namespace Forth

def failure? {α : Type} : Except Failure α → Option Failure
  | .ok _ => none
  | .error failure => some failure

namespace Fetched

/-- What a fetch adds to the text: its line, decoded on its own, or nothing if it failed. -/
def text : Fetched → List Char
  | .ok bytes => Utf8.decode bytes
  | .error _ => []

def failure? : Fetched → Option Failure
  | .ok _ => none
  | .error reason => some { cause := .io reason }

end Fetched

namespace Reading

def failure? : Reading → Option Failure
  | byte _ | endOfInput => none
  | failure reason => some { cause := .io reason }

/-- What a fetch takes ends with the failure it returns, and holds no other. -/
theorem Fetch.exists_asked {readings left : List Reading} {outcome : Fetched}
    (h : Fetch readings outcome left) :
    ∃ asked, readings = asked ++ left ∧
      asked.filterMap failure? = (Fetched.failure? outcome).toList := by
  have hchunk (bytes : List UInt8) : (chunk bytes).filterMap failure? = [] := by
    rw [chunk, List.filterMap_map]
    exact List.filterMap_eq_nil_iff.mpr fun _ _ => rfl
  cases h with
  | line | paused | failed =>
    refine ⟨_, List.append_cons .., ?_⟩
    rw [List.filterMap_append, hchunk]
    rfl
  | @finished bytes => exact ⟨chunk bytes, (List.append_nil _).symm, hchunk bytes⟩

/-- A fetch gives no more than one line. -/
theorem Fetch.afterLine_decode {readings left : List Reading} {bytes : List UInt8}
    (h : Fetch readings (.ok bytes) left) : Text.afterLine (Utf8.decode bytes) = [] := by
  have hwhole : Text.line (Utf8.decode bytes) = Utf8.decode bytes := by
    cases h with
    | line _ hbytes =>
      rw [Utf8.decode_newline _ []]
      exact Text.line_append_newline (Utf8.newline_not_mem_decode hbytes) []
    | paused _ hbytes | finished hbytes =>
      exact Text.line_of_not_mem (Utf8.newline_not_mem_decode hbytes)
  rw [← hwhole, Text.afterLine_line]

/-- Some fetches in a row, and what the reader will answer after them. -/
inductive Fetches (start : List Reading) : List Fetched → List Reading → Prop
  | none : Fetches start [] start
  | snoc {outcomes : List Fetched} {outcome : Fetched} {readings left : List Reading} :
      Fetches start outcomes readings → Fetch readings outcome left →
      Fetches start (outcomes ++ [outcome]) left

theorem Fetches.exists_asked {start left : List Reading} {outcomes : List Fetched}
    (h : Fetches start outcomes left) :
    ∃ asked, start = asked ++ left ∧
      asked.filterMap failure? = outcomes.filterMap Fetched.failure? := by
  induction h with
  | none => exact ⟨[], rfl, rfl⟩
  | @snoc outcomes outcome _ _ _ hfetch ih =>
    obtain ⟨before, rfl, hbefore⟩ := ih
    obtain ⟨asked, rfl, hasked⟩ := hfetch.exists_asked
    refine ⟨before ++ asked, (List.append_assoc ..).symm, ?_⟩
    rw [List.filterMap_append, List.filterMap_append, hbefore, hasked]
    cases outcome <;> rfl

end Reading

namespace Text

theorem line_of_afterLine {text : List Char} (h : afterLine text = []) : line text = text := by
  have hsplit := line_append_afterLine text
  rwa [h, List.append_nil] at hsplit

theorem afterLine_eq_nil_of_append {run rest : List Char} (h : afterLine (run ++ rest) = []) :
    afterLine rest = [] := by
  induction run with
  | nil => exact h
  | cons c run ih =>
    by_cases hc : c = '\n'
    · have hempty : run ++ rest = [] := by
        rw [List.cons_append, hc] at h
        exact h
      rw [(List.append_eq_nil_iff.mp hempty).2]
      rfl
    · have hcons : afterLine (c :: (run ++ rest)) = afterLine (run ++ rest) := by
        simp [afterLine, hc]
      exact ih (hcons ▸ h)

end Text

namespace ReaderBuffer

open Source (Operation Reply)

variable {α β : Type} {path : String} {readings : List Reading}

section Peek

variable {b c : ReaderBuffer} {x : Option Char}

theorem taken_peek (b : ReaderBuffer) : (peek b).state.taken = b.taken := by
  have hpeeked := peeked_peek b
  generalize peek b = r at hpeeked
  cases hpeeked <;> rfl

theorem taken_of_peek (h : peek b = .ok x c) : c.taken = b.taken := by
  have htaken := taken_peek b
  rwa [h] at htaken

theorem exhausted_of_peek (h : peek b = .ok none c) : c.exhausted = true := by
  have hpeeked := peeked_peek b
  rw [h] at hpeeked
  cases hpeeked with
  | ended _ hexhausted => exact hexhausted
  | finished => rfl

end Peek

/-- A relation between the buffers before and after an action, and its failure, that holds of a
look at the next character and of a move within the line, and so of everything made of these. -/
structure Steady (R : ReaderBuffer → Option Failure → ReaderBuffer → Prop) : Prop where
  refl (b : ReaderBuffer) : R b none b
  trans {b c d : ReaderBuffer} {f : Option Failure} : R b none c → R c f d → R b f d
  peek (b : ReaderBuffer) : R b (failure? (peek b).answer) (peek b).state
  moveBy {b : ReaderBuffer} {run rest : List Char} :
    b.line = run ++ rest → R b none (b.moveBy run rest)

namespace Steady

variable {R : ReaderBuffer → Option Failure → ReaderBuffer → Prop}

theorem bind {m : ReaderM α} {f : α → ReaderM β} {b : ReaderBuffer}
    (hR : Steady R) (hm : R b (failure? (m b).answer) (m b).state)
    (hf : ∀ a c, m b = .ok a c → R c (failure? (f a c).answer) (f a c).state) :
    R b (failure? ((m >>= f) b).answer) ((m >>= f) b).state := by
  rw [bind_apply]
  cases h : m b with
  | ok a c =>
    rw [h] at hm
    exact hR.trans hm (hf a c h)
  | error failure c =>
    rw [h] at hm
    exact hm

theorem skip (hR : Steady R) (b : ReaderBuffer) : R b none b.skip :=
  hR.moveBy (List.take_append_drop 1 b.line).symm

theorem takeWhile (hR : Steady R) (p : Char → Bool) (b : ReaderBuffer) :
    R b (failure? (ReaderBuffer.takeWhile p b).answer) (ReaderBuffer.takeWhile p b).state := by
  induction b using takeWhile_induction p with
  | step b ih =>
    have hpeek := hR.peek b
    rw [takeWhile_eq]
    cases hb : ReaderBuffer.peek b with
    | error failure c =>
      rw [hb] at hpeek
      exact hpeek
    | ok x c =>
      rw [hb] at hpeek
      cases x with
      | none => exact hpeek
      | some x =>
        cases hp : p x with
        | false =>
          simp only [hp, Bool.false_eq_true, if_false]
          exact hpeek
        | true =>
          simp only [hp, if_true]
          have hrest := hR.trans hpeek (hR.trans (hR.skip c) (ih x c hb hp))
          cases hc : ReaderBuffer.takeWhile p c.skip with
          | ok | error =>
            rw [hc] at hrest
            exact hrest

theorem nextToken (hR : Steady R) (b : ReaderBuffer) :
    R b (failure? (ReaderBuffer.nextToken b).answer) (ReaderBuffer.nextToken b).state := by
  refine hR.bind (hR.takeWhile isBlank b) fun _ c _ => ?_
  refine hR.bind (hR.peek c) fun x d _ => ?_
  cases x with
  | none => exact hR.refl d
  | some x =>
    refine hR.bind (hR.refl d) fun _ e _ => ?_
    exact hR.bind (hR.takeWhile Text.isLetter e) fun _ g _ => hR.refl g

theorem perform (hR : Steady R) (operation : Operation) (b : ReaderBuffer) :
    R b (failure? (ReaderBuffer.perform operation b).answer)
      (ReaderBuffer.perform operation b).state := by
  cases operation with
  | peek => exact hR.bind (hR.peek b) fun _ c _ => hR.refl c
  | next =>
    have hnext : R b (failure? (next b).answer) (next b).state :=
      hR.bind (hR.peek b) fun _ c _ => hR.skip c
    exact hR.bind hnext fun _ c _ => hR.refl c
  | restOfLine =>
    have hline : R b (failure? (restOfLine b).answer) (restOfLine b).state := by
      refine hR.bind (hR.peek b) fun x c _ => ?_
      cases x with
      | none => exact hR.refl c
      | some x => exact hR.moveBy (Text.line_append_afterLine c.line).symm
    exact hR.bind hline fun _ c _ => hR.refl c
  | nextToken => exact hR.bind (hR.nextToken b) fun _ c _ => hR.refl c

end Steady

/-- What holds of a buffer whose reader had all these answers before it, whatever was asked since. -/
structure Consistent (path : String) (readings : List Reading) (b : ReaderBuffer) : Prop where
  fetches : Reading.Fetches readings b.fetched b.readings
  text : b.taken ++ b.line = b.fetched.flatMap Fetched.text
  location : b.location = Location.behind path b.taken
  line : Text.afterLine b.line = []
  exhausted : b.exhausted = true ↔ .ok [] ∈ b.fetched
  ended : b.exhausted = true → b.line = []

namespace Consistent

variable {b : ReaderBuffer}

theorem ofReader (path : String) (readings : List Reading) :
    (ReaderBuffer.ofReader path readings).Consistent path readings where
  fetches := .none
  text := rfl
  location := rfl
  line := rfl
  exhausted := by simp [ReaderBuffer.ofReader]
  ended _ := rfl

theorem peek (h : b.Consistent path readings) :
    (ReaderBuffer.peek b).state.Consistent path readings := by
  have hpeeked := peeked_peek b
  generalize ReaderBuffer.peek b = r at hpeeked
  have htext := h.text
  cases hpeeked with
  | buffered | ended => exact h
  | @fetched c more bytes left hline hexhausted hfetch hne hdecode =>
    rw [hline, List.append_nil] at htext
    have hafter := hfetch.afterLine_decode
    rw [hdecode] at hafter
    refine ⟨h.fetches.snoc hfetch, ?_, h.location, hafter, ?_, ?_⟩
    · simp [htext, Fetched.text, hdecode]
    · have hexhausted := h.exhausted
      simpa [hne.symm] using hexhausted
    · intro hover
      rw [hexhausted] at hover
      cases hover
  | finished hline hexhausted hfetch =>
    refine ⟨h.fetches.snoc hfetch, ?_, h.location, h.line, ?_, fun _ => hline⟩
    · simpa [Fetched.text] using htext
    · simp
  | failed hline hexhausted hfetch =>
    refine ⟨h.fetches.snoc hfetch, ?_, h.location, h.line, ?_, h.ended⟩
    · simpa [Fetched.text] using htext
    · simpa using h.exhausted

theorem moveBy {run rest : List Char} (h : b.Consistent path readings)
    (hline : b.line = run ++ rest) : (b.moveBy run rest).Consistent path readings where
  fetches := h.fetches
  text := by
    have htext := h.text
    rwa [hline, ← List.append_assoc] at htext
  location := by
    rw [ReaderBuffer.moveBy, h.location, Location.advanceBy_behind]
  line := Text.afterLine_eq_nil_of_append (hline ▸ h.line)
  exhausted := h.exhausted
  ended hover := by
    have hnil := h.ended hover
    rw [hline] at hnil
    exact (List.append_eq_nil_iff.mp hnil).2

end Consistent

theorem steady_consistent (path : String) (readings : List Reading) :
    Steady fun b _ c => b.Consistent path readings → c.Consistent path readings where
  refl _ h := h
  trans hbc hcd h := hcd (hbc h)
  peek _ h := h.peek
  moveBy hline h := h.moveBy hline

/-- The failures of the reader that were met since, which are those that were returned. -/
theorem steady_failures : Steady fun b failure c =>
    c.fetched.filterMap Fetched.failure? =
      b.fetched.filterMap Fetched.failure? ++ failure.toList where
  refl _ := (List.append_nil _).symm
  trans hbc hcd := by
    rw [hcd, hbc]
    simp
  peek b := by
    have hpeeked := peeked_peek b
    generalize peek b = r at hpeeked
    cases hpeeked <;> simp [Fetched.failure?, failure?]
  moveBy _ := (List.append_nil _).symm

theorem Consistent.after {b : ReaderBuffer} (h : b.Consistent path readings)
    (operations : List Operation) : (b.after operations).Consistent path readings := by
  induction operations generalizing b with
  | nil => exact h
  | cons operation more ih =>
    exact ih ((steady_consistent path readings).perform operation b h)

/-- Each failure of the reader is returned by one operation. -/
theorem failures_observe (operations : List Operation) (b : ReaderBuffer) :
    (b.after operations).fetched.filterMap Fetched.failure? =
      b.fetched.filterMap Fetched.failure? ++
        (observe operations b).filterMap fun seen => failure? seen.1 := by
  induction operations generalizing b with
  | nil => exact (List.append_nil _).symm
  | cons operation more ih =>
    have hafter : b.after (operation :: more) = (perform operation b).state.after more := rfl
    rw [hafter, ih, steady_failures.perform operation b, observe, List.append_assoc]
    congr 1
    cases h : failure? (perform operation b).answer <;> simp [h]

/-- The buffer is at the end of its input, which is final. -/
def Over (b : ReaderBuffer) : Prop := b.line = [] ∧ b.exhausted = true

/-- The next character satisfies `p`, or there will be none. -/
def StopsAt (p : Char → Bool) (b : ReaderBuffer) : Prop :=
  b.Over ∨ ∃ x more, b.line = x :: more ∧ p x = true

section Peek

variable {b c : ReaderBuffer}

theorem over_of_peek (h : peek b = .ok none c) : c.Over :=
  ⟨line_of_peek_none h, exhausted_of_peek h⟩

theorem stopsAt_of_peek {x : Char} {p : Char → Bool} (h : peek b = .ok (some x) c)
    (hp : p x = true) : c.StopsAt p := by
  obtain ⟨more, hline⟩ := exists_line_of_peek h
  exact .inr ⟨x, more, hline, hp⟩

theorem taken_skip_of_peek {x : Option Char} (h : peek b = .ok x c) :
    c.skip.taken = b.taken ++ x.toList := by
  have hhead := head?_of_peek h
  rw [skip, moveBy, taken_of_peek h, ← hhead]
  cases c.line <;> rfl

end Peek

/-- The characters that satisfy `p` are taken, also across the ends of lines, up to the first that
does not or to the end of the input. A failure may come before that. -/
inductive Takes (p : Char → Bool) (b : ReaderBuffer) :
    EStateM.Result Failure ReaderBuffer (List Char) → Prop
  | stopped {run : List Char} {c : ReaderBuffer} : (∀ x ∈ run, p x = true) →
      c.taken = b.taken ++ run → c.StopsAt (fun x => !p x) → Takes p b (.ok run c)
  | failed (run : List Char) {failure : Failure} {c : ReaderBuffer} : (∀ x ∈ run, p x = true) →
      c.taken = b.taken ++ run → Takes p b (.error failure c)

theorem takes_takeWhile (p : Char → Bool) (b : ReaderBuffer) : Takes p b (takeWhile p b) := by
  induction b using takeWhile_induction p with
  | step b ih =>
    have htaken := taken_peek b
    rw [takeWhile_eq]
    cases hb : peek b with
    | error failure c =>
      rw [hb] at htaken
      exact .failed [] nofun (by simpa using htaken)
    | ok x c =>
      rw [hb] at htaken
      cases x with
      | none => exact .stopped nofun (by simpa using htaken) (.inl (over_of_peek hb))
      | some x =>
        cases hp : p x with
        | false =>
          simp only [hp, Bool.false_eq_true, if_false]
          exact .stopped nofun (by simpa using htaken) (stopsAt_of_peek hb (by simp [hp]))
        | true =>
          simp only [hp, if_true]
          have hrest := ih x c hb hp
          have hskip := taken_skip_of_peek hb
          generalize takeWhile p c.skip = r at hrest
          cases hrest with
          | @stopped run d hrun hd hstop =>
            refine .stopped (List.forall_mem_cons.mpr ⟨hp, hrun⟩) ?_ hstop
            rw [hd, hskip, Option.toList_some, List.append_assoc, List.singleton_append]
          | failed run hrun hd =>
            refine .failed (x :: run) (List.forall_mem_cons.mpr ⟨hp, hrun⟩) ?_
            rw [hd, hskip, Option.toList_some, List.append_assoc, List.singleton_append]

/-- What an operation gives and takes. A line ends where its fetch ended, a token does not. -/
inductive Gives (path : String) (b : ReaderBuffer) :
    Operation → EStateM.Result Failure ReaderBuffer Reply → Prop
  | peek {c : ReaderBuffer} : c.taken = b.taken → (c.line = [] → c.exhausted = true) →
      Gives path b .peek (.ok (.char c.line.head?) c)
  | next {x : Option Char} {c : ReaderBuffer} : c.taken = b.taken ++ x.toList →
      (x = none → c.Over) → Gives path b .next (.ok (.char x) c)
  | line : b.line ≠ [] →
      Gives path b .restOfLine (.ok (.line (some (String.ofList b.line))) (b.moveBy b.line []))
  | fetchedLine {bytes : List UInt8} {c : ReaderBuffer} : b.line = [] → bytes ≠ [] →
      c.fetched = b.fetched ++ [.ok bytes] → c.taken = b.taken ++ Utf8.decode bytes → c.line = [] →
      Gives path b .restOfLine (.ok (.line (some (String.ofList (Utf8.decode bytes)))) c)
  | noLine {c : ReaderBuffer} : c.taken = b.taken → c.Over →
      Gives path b .restOfLine (.ok (.line none) c)
  | token {gap word : List Char} {c : ReaderBuffer} : (∀ x ∈ gap, isBlank x = true) →
      word ≠ [] → (∀ x ∈ word, isBlank x = false) → c.taken = b.taken ++ gap ++ word →
      c.StopsAt isBlank →
      Gives path b .nextToken (.ok
        (.token (some ⟨String.ofList word, Location.behind path (b.taken ++ gap)⟩)) c)
  | noToken {gap : List Char} {c : ReaderBuffer} : (∀ x ∈ gap, isBlank x = true) →
      c.taken = b.taken ++ gap → c.Over → Gives path b .nextToken (.ok (.token none) c)
  | failed {operation : Operation} {failure : Failure} (gap word : List Char) {c : ReaderBuffer} :
      (∀ x ∈ gap, isBlank x = true) → (∀ x ∈ word, isBlank x = false) →
      c.taken = b.taken ++ gap ++ word → (operation ≠ .nextToken → c.taken = b.taken) →
      Gives path b operation (.error failure c)

section Full

variable {b c : ReaderBuffer} {x : Char} {more : List Char}

theorem peek_of_line (h : b.line = x :: more) : peek b = .ok (some x) b := by
  have hpeek := peek_of_full (b := b) (.inl (by rw [h]; exact List.cons_ne_nil x more))
  rwa [h] at hpeek

theorem peek_of_over (h : b.Over) : peek b = .ok none b := by
  have hpeek := peek_of_full (.inr h.2)
  rwa [h.1] at hpeek

theorem head?_of_takeWhile {p : Char → Bool} {run : List Char} (hline : b.line = x :: more)
    (hp : p x = true) (h : takeWhile p b = .ok run c) : run.head? = some x := by
  rw [takeWhile_eq, peek_of_line hline] at h
  simp only [hp, if_true] at h
  cases hrest : takeWhile p b.skip with
  | ok rest d =>
    rw [hrest] at h
    cases h
    rfl
  | error failure d =>
    rw [hrest] at h
    cases h

theorem nextToken_of_over {gap : List Char} (hgap : takeWhile isBlank b = .ok gap c)
    (h : c.Over) : nextToken b = .ok none c :=
  (bind_of_ok hgap).trans (bind_of_ok (peek_of_over h))

theorem nextToken_of_line {gap : List Char} (hgap : takeWhile isBlank b = .ok gap c)
    (h : c.line = x :: more) :
    nextToken b = (do
      let word ← (takeWhile Text.isLetter : ReaderM (List Char))
      return some { text := String.ofList word, location := c.location } : ReaderM (Option Token))
        c :=
  (bind_of_ok hgap).trans (bind_of_ok (peek_of_line h))

end Full

section Gives

variable {b : ReaderBuffer}

theorem gives_of_peek_error {c : ReaderBuffer} {failure : Failure} (path : String)
    (operation : Operation) (h : peek b = .error failure c) :
    Gives path b operation (.error failure c) := by
  have htaken := taken_peek b
  rw [h] at htaken
  exact .failed [] [] nofun nofun (by simpa using htaken) fun _ => htaken

theorem gives_peek (path : String) (b : ReaderBuffer) :
    Gives path b .peek (perform .peek b) := by
  cases h : peek b with
  | error failure c =>
    rw [show perform .peek b = _ from bind_of_error h]
    exact gives_of_peek_error path .peek h
  | ok x c =>
    rw [show perform .peek b = _ from bind_of_ok h, ← head?_of_peek h]
    refine .peek (taken_of_peek h) fun hline => ?_
    have hhead := head?_of_peek h
    rw [hline] at hhead
    subst hhead
    exact exhausted_of_peek h

theorem gives_next (path : String) (b : ReaderBuffer) :
    Gives path b .next (perform .next b) := by
  cases h : peek b with
  | error failure c =>
    have hnext : next b = .error failure c := bind_of_error h
    rw [show perform .next b = _ from bind_of_error hnext]
    exact gives_of_peek_error path .next h
  | ok x c =>
    have hnext : next b = .ok x c.skip := bind_of_ok h
    rw [show perform .next b = _ from bind_of_ok hnext]
    refine .next (taken_skip_of_peek h) fun hx => ?_
    subst hx
    obtain ⟨hline, hexhausted⟩ := over_of_peek h
    exact ⟨by rw [skip, hline]; rfl, hexhausted⟩

theorem restOfLine_of_peek {c : ReaderBuffer} {x : Char} (h : peek b = .ok (some x) c)
    (hline : Text.afterLine c.line = []) :
    perform .restOfLine b = .ok (.line (some (String.ofList c.line))) (c.moveBy c.line []) := by
  have hrest : restOfLine b = .ok (some (String.ofList (Text.line c.line)))
      (c.moveBy (Text.line c.line) (Text.afterLine c.line)) := bind_of_ok h
  rw [Text.line_of_afterLine hline, hline] at hrest
  exact bind_of_ok hrest

theorem Consistent.gives_restOfLine (h : b.Consistent path readings) :
    Gives path b .restOfLine (perform .restOfLine b) := by
  have hconsistent := h.peek
  have hpeeked := peeked_peek b
  generalize hb : ReaderBuffer.peek b = r at hconsistent hpeeked
  cases hpeeked with
  | buffered hline =>
    rw [restOfLine_of_peek hb hconsistent.line]
    exact .line (by rw [hline]; exact List.cons_ne_nil _ _)
  | fetched hline _ _ hne hdecode =>
    rw [restOfLine_of_peek hb hconsistent.line, ← hdecode]
    exact .fetchedLine hline hne rfl rfl rfl
  | ended hline hexhausted =>
    have hrest : restOfLine b = .ok none b := bind_of_ok hb
    rw [show perform .restOfLine b = _ from bind_of_ok hrest]
    exact .noLine rfl ⟨hline, hexhausted⟩
  | finished hline =>
    have hrest : restOfLine b = .ok none _ := bind_of_ok hb
    rw [show perform .restOfLine b = _ from bind_of_ok hrest]
    exact .noLine rfl ⟨hline, rfl⟩
  | failed =>
    have hrest : restOfLine b = .error _ _ := bind_of_error hb
    rw [show perform .restOfLine b = _ from bind_of_error hrest]
    exact gives_of_peek_error path .restOfLine hb

theorem Consistent.gives_nextToken (h : b.Consistent path readings) :
    Gives path b .nextToken (perform .nextToken b) := by
  have hconsistent := (steady_consistent path readings).takeWhile isBlank b h
  have hblanks := takes_takeWhile isBlank b
  generalize hgap : takeWhile isBlank b = r at hblanks hconsistent
  cases hblanks with
  | @failed gap failure c hblank htaken =>
    have htoken : nextToken b = .error failure c := bind_of_error hgap
    rw [show perform .nextToken b = _ from bind_of_error htoken]
    exact .failed gap [] hblank nofun (by simpa using htaken) (absurd rfl)
  | @stopped gap c hblank htaken hstop =>
    obtain hover | ⟨x, more, hline, hx⟩ := hstop
    · have htoken := nextToken_of_over hgap hover
      rw [show perform .nextToken b = _ from bind_of_ok htoken]
      exact .noToken hblank htaken hover
    · have htoken := nextToken_of_line hgap hline
      have hletters := takes_takeWhile Text.isLetter c
      have hplace : c.location = Location.behind path (b.taken ++ gap) :=
        htaken ▸ hconsistent.location
      generalize hword : takeWhile Text.isLetter c = q at hletters
      cases hletters with
      | @failed word failure d hink hd =>
        rw [bind_of_error hword] at htoken
        rw [show perform .nextToken b = _ from bind_of_error htoken]
        refine .failed gap word hblank (fun x hx => ?_) (by rw [hd, htaken]) (absurd rfl)
        simpa [Text.isLetter] using hink x hx
      | @stopped word d hink hd hstop =>
        -- the word is not empty, since the character that ended the gap is its first
        have hhead := head?_of_takeWhile hline (p := Text.isLetter) hx hword
        rw [bind_of_ok hword, hplace] at htoken
        rw [show perform .nextToken b = _ from bind_of_ok htoken]
        refine .token hblank (fun hnil => ?_) (fun x hx => ?_) (by rw [hd, htaken]) ?_
        · rw [hnil] at hhead
          cases hhead
        · simpa [Text.isLetter] using hink x hx
        · simpa [Text.isLetter] using hstop

theorem Consistent.gives (h : b.Consistent path readings) (operation : Operation) :
    Gives path b operation (perform operation b) := by
  cases operation with
  | peek => exact gives_peek path b
  | next => exact gives_next path b
  | restOfLine => exact h.gives_restOfLine
  | nextToken => exact h.gives_nextToken

/-- What an operation gives at the end of the input. -/
def nothing : Operation → Reply
  | .peek | .next => .char none
  | .restOfLine => .line none
  | .nextToken => .token none

/-- At its end the buffer stays as it is, and the reader is not asked again. -/
theorem perform_of_over (h : b.Over) (operation : Operation) :
    perform operation b = .ok (nothing operation) b := by
  have hpeek := peek_of_over h
  cases operation with
  | peek => exact bind_of_ok hpeek
  | next =>
    have hskip : b.skip = b := by
      obtain ⟨location, line, readings, exhausted, fetched, taken⟩ := b
      obtain rfl : line = [] := h.1
      simp [skip, moveBy]
    have hnext : next b = .ok none b.skip := bind_of_ok hpeek
    rw [hskip] at hnext
    exact bind_of_ok hnext
  | restOfLine =>
    have hrest : restOfLine b = .ok none b := bind_of_ok hpeek
    exact bind_of_ok hrest
  | nextToken =>
    have hgap : takeWhile isBlank b = .ok [] b := by rw [takeWhile_eq, hpeek]
    exact bind_of_ok (nextToken_of_over hgap h)

end Gives

theorem Shows.after {b : ReaderBuffer} {s : Source} (h : b.Shows s)
    (operations : List Operation) : (b.after operations).Shows (s.after operations) := by
  induction operations generalizing b s with
  | nil => exact h
  | cons operation more ih => exact ih (agree_perform operation h).state

/-- A source does what a buffer does that asks the reader for each line when it needs it. The
buffer stays consistent: each failure that the reader answered with is returned by one operation,
every operation gives what comes next in the lines that were fetched, and at the end of the input
the reader is left alone. -/
theorem consistent_after (path : String) (readings : List Reading)
    (operations : List Operation) :
    let start := ofReader path readings
    let b := start.after operations
    observe operations start = Source.observe operations (Source.ofReader path readings) ∧
      b.Shows ((Source.ofReader path readings).after operations) ∧
      b.Consistent path readings ∧
      (∃ asked, readings = asked ++ b.readings ∧
        (observe operations start).filterMap (fun seen => failure? seen.1) =
          asked.filterMap Reading.failure?) ∧
      ∀ operation, Gives path b operation (perform operation b) ∧
        (b.exhausted = true → perform operation b = .ok (nothing operation) b) := by
  intro start b
  have hshows := shows_ofReader path readings
  have hconsistent := (Consistent.ofReader path readings).after operations
  have hfailures := failures_observe operations start
  obtain ⟨asked, hasked, hreturned⟩ := hconsistent.fetches.exists_asked
  refine ⟨hshows.observe operations, hshows.after operations, hconsistent,
    ⟨asked, hasked, ?_⟩, fun operation => ⟨hconsistent.gives operation, fun hexhausted => ?_⟩⟩
  · rw [hreturned, hfailures]
    rfl
  · exact perform_of_over ⟨hconsistent.ended hexhausted, hexhausted⟩ operation

/-- A token goes on where the input seemed to end, and a line does not. -/
example :
    let source := Source.ofReader "-"
      (Reading.chunk [0x61, 0x20, 0x62] ++ .endOfInput :: Reading.chunk [0x63])
    (Source.observe [.nextToken, .nextToken] source).map (·.1) =
        [.ok (.token (some ⟨"a", ⟨"-", 1, 1⟩⟩)), .ok (.token (some ⟨"bc", ⟨"-", 1, 3⟩⟩))] ∧
      (Source.observe [.nextToken, .restOfLine] source).map (·.1) =
        [.ok (.token (some ⟨"a", ⟨"-", 1, 1⟩⟩)), .ok (.line (some " b"))] := by
  decide

end ReaderBuffer

end Forth
