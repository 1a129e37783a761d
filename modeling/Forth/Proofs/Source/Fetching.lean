import Forth.Proofs.Source.ReaderBuffer

/-! # A buffer gives what the whole of its input gives

The source that holds everything that its reader would answer skips the places
where a line is asked for, and meets the failures where they are. Taken one
character at a time it does what the buffer does, which asks for each line when
it needs it.
-/

namespace Forth

namespace Source

/-- Whether the item is passed while characters are taken that satisfy `p`. -/
def passes (p : Char → Bool) : Item → Bool
  | .char c => p c
  | .seam => true
  | .fault _ => false

/-- Takes characters while they satisfy `p`, and looks at what stopped it. -/
def takeWhile (p : Char → Bool) : SourceM (List Char) := do
  let items := (← get).unread
  modify (·.moveBy (items.takeWhile (passes p)) (items.dropWhile (passes p)))
  let _ ← peek
  return Item.chars (items.takeWhile (passes p))

def skip (s : Source) : Source := s.moveBy (s.unread.take 1) (s.unread.drop 1)

theorem takeWhile_apply (p : Char → Bool) (s : Source) :
    takeWhile p s = (do
      let _ ← peek
      return Item.chars (s.unread.takeWhile (passes p)) : SourceM (List Char))
        (s.moveBy (s.unread.takeWhile (passes p)) (s.unread.dropWhile (passes p))) := rfl

theorem takeWhile_append_of_imp {p q : Item → Bool} (h : ∀ i, p i = true → q i = true)
    (items : List Item) :
    items.takeWhile p ++ (items.dropWhile p).takeWhile q = items.takeWhile q ∧
      (items.dropWhile p).dropWhile q = items.dropWhile q := by
  induction items with
  | nil => exact ⟨rfl, rfl⟩
  | cons i items ih =>
    by_cases hp : p i = true
    · simp [hp, h i hp, ih]
    · simp [hp]

theorem takeWhile_pastSeams (p : Char → Bool) (s : Source) :
    takeWhile p s.pastSeams = takeWhile p s := by
  have himp : ∀ i, Item.isSeam i = true → passes p i = true := by
    rintro (_ | _ | _) <;> simp [Item.isSeam, passes]
  obtain ⟨htake, hdrop⟩ := takeWhile_append_of_imp himp s.unread
  have hchars := Item.chars_append (s.unread.takeWhile Item.isSeam)
    ((s.unread.dropWhile Item.isSeam).takeWhile (passes p))
  rw [htake, chars_takeWhile_isSeam, List.nil_append] at hchars
  rw [takeWhile_apply, takeWhile_apply, pastSeams, moveBy_moveBy]
  change (do
    let _ ← peek
    return Item.chars ((s.unread.dropWhile Item.isSeam).takeWhile (passes p)) : SourceM (List Char))
      (s.moveBy (s.unread.takeWhile Item.isSeam ++
        (s.unread.dropWhile Item.isSeam).takeWhile (passes p))
        ((s.unread.dropWhile Item.isSeam).dropWhile (passes p))) = _
  rw [htake, hdrop, hchars]

theorem takeWhile_of_stop {p : Char → Bool} {s : Source} (htake : s.unread.takeWhile (passes p) = [])
    (hdrop : s.unread.dropWhile (passes p) = s.unread) :
    takeWhile p s = (do let _ ← peek; return [] : SourceM (List Char)) s := by
  rw [takeWhile_apply, htake, hdrop]
  rfl

theorem takeWhile_of_char {p : Char → Bool} {s : Source} {c : Char} {rest : List Item}
    (h : s.unread = .char c :: rest) :
    takeWhile p s =
      if p c then
        match takeWhile p s.skip with
        | .ok run u => .ok (c :: run) u
        | .error failure u => .error failure u
      else .ok [] s := by
  cases hp : p c with
  | false =>
    have hstop : passes p (.char c) = false := hp
    rw [takeWhile_of_stop (by simp [h, hstop]) (by simp [h, hstop])]
    exact bind_of_ok (peek_of_char h)
  | true =>
    have hpass : passes p (.char c) = true := hp
    have hskip : s.skip = s.moveBy [.char c] rest := by rw [skip, h]; rfl
    have hrest : (s.moveBy [.char c] rest).unread = rest := rfl
    rw [if_pos rfl, hskip, takeWhile_apply, takeWhile_apply, moveBy_moveBy, hrest, h,
      List.takeWhile_cons_of_pos hpass, List.dropWhile_cons_of_pos hpass, bind_apply, bind_apply,
      List.singleton_append]
    cases peek (s.moveBy (.char c :: rest.takeWhile (passes p)) (rest.dropWhile (passes p))) <;> rfl

/-- It is a loop that takes one character at a time. -/
theorem takeWhile_eq (p : Char → Bool) (s : Source) :
    takeWhile p s =
      match peek s with
      | .error failure t => .error failure t
      | .ok none t => .ok [] t
      | .ok (some c) t =>
        if p c then
          match takeWhile p t.skip with
          | .ok run u => .ok (c :: run) u
          | .error failure u => .error failure u
        else .ok [] t := by
  rw [← takeWhile_pastSeams, ← peek_pastSeams]
  obtain h | ⟨reason, rest, h⟩ | ⟨c, rest, h⟩ := dropWhile_isSeam_cases s.unread
  all_goals have hunread : s.pastSeams.unread = _ := h
  · have hpeek : peek s.pastSeams = .ok none s.pastSeams := peek_of_nil hunread
    rw [takeWhile_of_stop (by rw [hunread]; rfl) (by rw [hunread]; rfl), hpeek]
    exact bind_of_ok hpeek
  · have hpeek := peek_of_fault hunread
    rw [takeWhile_of_stop (by rw [hunread]; rfl) (by rw [hunread]; rfl), hpeek]
    exact bind_of_error hpeek
  · have hpeek : peek s.pastSeams = .ok (some c) s.pastSeams := peek_of_char hunread
    rw [hpeek]
    exact takeWhile_of_char hunread

theorem peek_of_peek {s t : Source} {c : Option Char} (h : peek s = .ok c t) :
    peek t = .ok c t := by
  rw [← peek_pastSeams] at h
  obtain hs | ⟨reason, rest, hs⟩ | ⟨d, rest, hs⟩ := dropWhile_isSeam_cases s.unread
  all_goals have hunread : s.pastSeams.unread = _ := hs
  · have hpeek := peek_of_nil hunread
    rw [hpeek] at h
    cases h
    exact hpeek
  · rw [peek_of_fault hunread] at h
    cases h
  · have hpeek := peek_of_char hunread
    rw [hpeek] at h
    cases h
    exact hpeek

section Seams

variable {s : Source} {rest : List Item}

theorem peek_of_seams_nil (h : s.unread.dropWhile Item.isSeam = []) :
    peek s = .ok none { s with unread := [] } := by
  rw [← peek_pastSeams, peek_of_nil (s := s.pastSeams) h, pastSeams_eq, h]

theorem peek_of_seams_char {c : Char} (h : s.unread.dropWhile Item.isSeam = .char c :: rest) :
    peek s = .ok (some c) { s with unread := .char c :: rest } := by
  rw [← peek_pastSeams, peek_of_char (s := s.pastSeams) h, pastSeams_eq, h]

theorem peek_of_seams_fault {reason : String}
    (h : s.unread.dropWhile Item.isSeam = .fault reason :: rest) :
    peek s = .error { cause := .io reason } { s with unread := rest } := by
  rw [← peek_pastSeams, peek_of_fault (s := s.pastSeams) h, pastSeams_eq]

theorem unread_of_peek_none {t : Source} (h : peek s = .ok none t) : t.unread = [] := by
  obtain hs | ⟨reason, rest, hs⟩ | ⟨c, rest, hs⟩ := dropWhile_isSeam_cases s.unread
  · rw [peek_of_seams_nil hs] at h
    cases h
    rfl
  · rw [peek_of_seams_fault hs] at h
    cases h
  · rw [peek_of_seams_char hs] at h
    cases h

end Seams

theorem passes_isBlank : passes isBlank = Item.isGap := by
  funext i
  cases i <;> rfl

theorem passes_isLetter : passes Text.isLetter = Item.isInk := by
  funext i
  cases i <;> rfl

theorem takeWhile_isBlank (s : Source) :
    takeWhile isBlank s = (do
      let _ ← peek
      return Item.chars (Item.gap s.unread) : SourceM (List Char)) s.atWord := by
  rw [takeWhile_apply, passes_isBlank]
  rfl

/-- A token is a run without white space, behind a run of it. -/
theorem nextToken_eq : nextToken = (do
    let _ ← takeWhile isBlank
    match ← peek with
    | none => return none
    | some _ =>
      let location := (← get).location
      let word ← takeWhile Text.isLetter
      return some { text := String.ofList word, location } : SourceM (Option Token)) := by
  funext s
  rw [nextToken, bind_of_ok (skipBlanks_apply s)]
  cases hp : peek s.atWord with
  | error failure t =>
    have hrun : takeWhile isBlank s = .error failure t :=
      (takeWhile_isBlank s).trans (bind_of_error hp)
    rw [bind_of_error hp, bind_of_error hrun]
  | ok c t =>
    have hrun : takeWhile isBlank s = .ok (Item.chars (Item.gap s.unread)) t :=
      (takeWhile_isBlank s).trans (bind_of_ok hp)
    rw [bind_of_ok hp, bind_of_ok hrun, bind_of_ok (peek_of_peek hp)]
    cases c with
    | none => rfl
    | some x =>
      let run := t.unread.takeWhile Item.isInk
      let u := t.moveBy run (t.unread.dropWhile Item.isInk)
      have hink : takeInk t = .ok (String.ofList (Item.chars run)) u := rfl
      have hword : takeWhile Text.isLetter t =
          (do let _ ← peek; return Item.chars run : SourceM (List Char)) u := by
        rw [takeWhile_apply, passes_isLetter]
      simp only [get_bind_apply]
      rw [bind_of_ok hink, bind_apply, bind_apply, hword, bind_apply]
      cases peek u <;> rfl

end Source

namespace Item

theorem splitLine_of_cons {c : Char} {more : List Char} {items : List Item}
    (h : splitLine ((c :: more).map .char ++ items) = ((c :: more).map .char, items)) :
    more = [] ∨ c ≠ '\n' ∧ splitLine (more.map .char ++ items) = (more.map .char, items) := by
  rw [List.map_cons, List.cons_append] at h
  by_cases hc : c = '\n'
  · subst hc
    rw [splitLine_newline] at h
    have hfirst := congrArg Prod.fst h
    exact .inl (List.map_eq_nil_iff.mp (List.cons.inj hfirst).2.symm)
  · rw [splitLine_cons hc] at h
    obtain ⟨hfirst, hrest⟩ := Prod.mk.inj h
    exact .inr ⟨hc, Prod.ext (List.cons.inj hfirst).2 hrest⟩

theorem line_of_splitLine {text : List Char} {items : List Item} (hne : text ≠ [])
    (h : splitLine (text.map .char ++ items) = (text.map .char, items)) :
    Text.line text = text := by
  induction text with
  | nil => exact absurd rfl hne
  | cons c more ih =>
    rw [Text.line_cons]
    obtain rfl | ⟨hc, hmore⟩ := splitLine_of_cons h
    · split_ifs with hc
      · rw [hc]
      · rfl
    · rw [if_neg hc]
      by_cases hnil : more = []
      · rw [hnil]
        rfl
      · rw [ih hnil hmore]

end Item

namespace ReaderBuffer

open Source (Operation)

variable {α β : Type} {b : ReaderBuffer} {s : Source}

/-- What the reader will still give, as items. -/
def later (b : ReaderBuffer) : List Item :=
  if b.exhausted then [] else Reading.itemsFrom [] b.readings

/-- The buffer and the source are at the same place. The rest of the line is the same in both, and
so is all that follows, up to places where more is asked for. -/
structure Shows (b : ReaderBuffer) (s : Source) : Prop where
  location : s.location = b.location
  unread : ∃ tail, s.unread = b.line.map .char ++ tail ∧
    tail.dropWhile Item.isSeam = b.later.dropWhile Item.isSeam ∧
    (b.line ≠ [] → Item.splitLine s.unread = (b.line.map .char, tail))

/-- Both actions have the same outcome, and the buffer still shows the source. -/
inductive Agree :
    EStateM.Result Failure ReaderBuffer α → EStateM.Result Failure Source α → Prop
  | ok (a : α) {c : ReaderBuffer} {t : Source} : c.Shows t → Agree (.ok a c) (.ok a t)
  | error (failure : Failure) {c : ReaderBuffer} {t : Source} : c.Shows t →
      Agree (.error failure c) (.error failure t)

theorem Agree.answer {r : EStateM.Result Failure ReaderBuffer α}
    {q : EStateM.Result Failure Source α} (h : Agree r q) : r.answer = q.answer := by
  cases h <;> rfl

theorem Agree.state {r : EStateM.Result Failure ReaderBuffer α}
    {q : EStateM.Result Failure Source α} (h : Agree r q) : r.state.Shows q.state := by
  cases h <;> assumption

theorem Agree.bind {m : ReaderM α} {n : SourceM α} {f : α → ReaderM β} {g : α → SourceM β}
    (h : Agree (m b) (n s))
    (hf : ∀ a c t, m b = .ok a c → n s = .ok a t → c.Shows t → Agree (f a c) (g a t)) :
    Agree ((m >>= f) b) ((n >>= g) s) := by
  rw [bind_apply, bind_apply]
  generalize m b = r at h hf
  generalize n s = q at h hf
  cases h with
  | ok a hshows => exact hf a _ _ rfl rfl hshows
  | error failure hshows => exact .error failure hshows

theorem Shows.of_line {c : Char} {more : List Char} (h : b.Shows s) (hline : b.line = c :: more) :
    ∃ rest, s.unread = .char c :: rest := by
  obtain ⟨tail, hunread, -⟩ := h.unread
  exact ⟨more.map .char ++ tail, by rw [hunread, hline]; rfl⟩

/-- Where no line is left, the source asks for more as well. -/
theorem Shows.dropWhile_isSeam (h : b.Shows s) (hline : b.line = []) :
    s.unread.dropWhile Item.isSeam = b.later.dropWhile Item.isSeam := by
  obtain ⟨tail, hunread, htail, -⟩ := h.unread
  rw [hunread, hline]
  exact htail

theorem agree_peek (h : b.Shows s) : Agree (peek b) (Source.peek s) := by
  have hpeeked := peeked_peek b
  generalize peek b = r at hpeeked
  cases hpeeked with
  | buffered hline =>
    obtain ⟨rest, hunread⟩ := h.of_line hline
    rw [Source.peek_of_char hunread]
    exact .ok _ h
  | ended hline hexhausted =>
    have hseams := h.dropWhile_isSeam hline
    rw [later, if_pos hexhausted] at hseams
    rw [Source.peek_of_seams_nil hseams]
    refine .ok none ⟨h.location, [], by simp [hline], ?_, absurd hline⟩
    rw [later, if_pos hexhausted]
  | fetched hline hexhausted hfetch hne hdecode =>
    obtain ⟨tail, hitems, hsplit, htail⟩ := hfetch.itemsFrom_of_ok
    have hseams := h.dropWhile_isSeam hline
    rw [if_neg hne] at htail
    rw [hdecode] at hitems hsplit
    rw [later, hexhausted, if_neg Bool.false_ne_true, hitems] at hseams
    rw [Source.peek_of_seams_char hseams]
    refine .ok _ ⟨h.location, tail, rfl, ?_, fun _ => ?_⟩
    · rw [htail, later, hexhausted, if_neg Bool.false_ne_true]
    · rw [hitems] at hsplit
      exact hsplit
  | finished hline hexhausted hfetch =>
    obtain ⟨tail, hitems, -, htail⟩ := hfetch.itemsFrom_of_ok
    have hseams := h.dropWhile_isSeam hline
    rw [if_pos rfl] at htail
    rw [later, hexhausted, if_neg Bool.false_ne_true, hitems] at hseams
    rw [Source.peek_of_seams_nil (hseams.trans htail)]
    exact .ok none ⟨h.location, [], by simp [hline], rfl, absurd hline⟩
  | @failed reason left hline hexhausted hfetch =>
    have hitems := hfetch.itemsFrom_of_error
    have hseams := h.dropWhile_isSeam hline
    rw [later, hexhausted, if_neg Bool.false_ne_true, hitems] at hseams
    rw [Source.peek_of_seams_fault hseams]
    refine .error _ ⟨h.location, Reading.itemsFrom [] left, by simp [hline], ?_, absurd hline⟩
    rw [later, hexhausted, if_neg Bool.false_ne_true]

/-- Taking a character of the line leaves the rest of it. -/
theorem Shows.skip {c : Char} {more : List Char} (h : b.Shows s) (hline : b.line = c :: more) :
    b.skip.Shows s.skip := by
  obtain ⟨tail, hunread, htail, hsplit⟩ := h.unread
  have hskip : b.skip = b.moveBy [c] more := by rw [ReaderBuffer.skip, hline]; rfl
  have hsource : s.skip = s.moveBy [.char c] (more.map .char ++ tail) := by
    rw [Source.skip, hunread, hline]
    rfl
  rw [hskip, hsource]
  refine ⟨congrArg (·.advanceBy [c]) h.location, tail, rfl, htail, fun hmore => ?_⟩
  have hsplit := hsplit (by rw [hline]; exact List.cons_ne_nil c more)
  rw [hunread, hline] at hsplit
  exact (Item.splitLine_of_cons hsplit).resolve_left hmore |>.2

theorem agree_next (h : b.Shows s) : Agree (next b) (Source.next s) := by
  refine (agree_peek h).bind fun x c t hb hs ht => .ok x ?_
  cases x with
  | some x =>
    obtain ⟨more, hline⟩ := exists_line_of_peek hb
    exact ht.skip hline
  | none =>
    have hline := line_of_peek_none hb
    have hunread := Source.unread_of_peek_none hs
    have hseams := ht.dropWhile_isSeam hline
    have hskip : c.skip = c.moveBy [] [] := by rw [ReaderBuffer.skip, hline]; rfl
    have hsource : t.skip = t.moveBy [] [] := by rw [Source.skip, hunread]; rfl
    rw [hunread] at hseams
    change c.skip.Shows t.skip
    rw [hskip, hsource]
    exact ⟨ht.location, [], rfl, hseams, absurd rfl⟩

theorem agree_restOfLine (h : b.Shows s) : Agree (restOfLine b) (Source.restOfLine s) := by
  refine (agree_peek h).bind fun x c t hb hs ht => ?_
  cases x with
  | none => exact .ok none ht
  | some x =>
    obtain ⟨more, hline⟩ := exists_line_of_peek hb
    have hne : c.line ≠ [] := by rw [hline]; exact List.cons_ne_nil x more
    obtain ⟨tail, hunread, htail, hsplit⟩ := ht.unread
    have hsplit := hsplit hne
    have hwhole : Text.line c.line = c.line := Item.line_of_splitLine hne (hunread ▸ hsplit)
    have hrest : Text.afterLine c.line = [] := by rw [← hwhole, Text.afterLine_line]
    change Agree (.ok (some (String.ofList (Text.line c.line)))
        (c.moveBy (Text.line c.line) (Text.afterLine c.line)))
      (.ok (some (String.ofList (Item.chars (Item.splitLine t.unread).1)))
        (t.moveBy (Item.splitLine t.unread).1 (Item.splitLine t.unread).2))
    rw [hwhole, hrest, hsplit, Item.chars_map_char]
    refine .ok _ ⟨?_, tail, rfl, htail, absurd rfl⟩
    change t.location.advanceBy (Item.chars (c.line.map .char)) = c.location.advanceBy c.line
    rw [Item.chars_map_char, ht.location]

theorem agree_takeWhile (p : Char → Bool) (h : b.Shows s) :
    Agree (takeWhile p b) (Source.takeWhile p s) := by
  induction b using takeWhile_induction p generalizing s with
  | step b ih =>
    have hpeek := agree_peek h
    rw [takeWhile_eq, Source.takeWhile_eq]
    generalize hb : peek b = r at hpeek
    generalize Source.peek s = q at hpeek
    cases hpeek with
    | error failure ht => exact .error failure ht
    | @ok x c t ht =>
      cases x with
      | none => exact .ok [] ht
      | some x =>
        cases hp : p x with
        | false =>
          simp only [hp, Bool.false_eq_true, if_false]
          exact .ok [] ht
        | true =>
          simp only [hp, if_true]
          obtain ⟨more, hline⟩ := exists_line_of_peek hb
          have hrest := ih x c hb hp (ht.skip hline)
          generalize takeWhile p c.skip = r at hrest
          generalize Source.takeWhile p t.skip = q at hrest
          cases hrest with
          | ok run hu => exact .ok (x :: run) hu
          | error failure hu => exact .error failure hu

theorem agree_nextToken (h : b.Shows s) : Agree (nextToken b) (Source.nextToken s) := by
  rw [Source.nextToken_eq]
  refine (agree_takeWhile isBlank h).bind fun _ c t _ _ ht => ?_
  refine (agree_peek ht).bind fun x d u _ _ hu => ?_
  cases x with
  | none => exact .ok none hu
  | some x =>
    simp only [get_bind_apply, hu.location]
    exact (agree_takeWhile Text.isLetter hu).bind fun run e v _ _ hv => .ok _ hv

theorem agree_perform (operation : Operation) (h : b.Shows s) :
    Agree (perform operation b) (Source.perform operation s) := by
  cases operation with
  | peek => exact (agree_peek h).bind fun x c t _ _ ht => .ok _ ht
  | next => exact (agree_next h).bind fun x c t _ _ ht => .ok _ ht
  | restOfLine => exact (agree_restOfLine h).bind fun x c t _ _ ht => .ok _ ht
  | nextToken => exact (agree_nextToken h).bind fun x c t _ _ ht => .ok _ ht

/-- Whatever is asked of them, the buffer and the source give the same. -/
theorem Shows.observe (h : b.Shows s) (operations : List Operation) :
    observe operations b = Source.observe operations s := by
  induction operations generalizing b s with
  | nil => rfl
  | cons operation more ih =>
    have hagree := agree_perform operation h
    rw [ReaderBuffer.observe, Source.observe, ih hagree.state, hagree.answer,
      hagree.state.location]

theorem shows_ofReader (path : String) (readings : List Reading) :
    (ofReader path readings).Shows (Source.ofReader path readings) :=
  ⟨rfl, Reading.itemsFrom [] readings, rfl, rfl, absurd rfl⟩

end ReaderBuffer

end Forth
