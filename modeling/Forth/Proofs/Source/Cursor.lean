import Forth.Proofs.Action
import Forth.Source.Token
import Mathlib.Data.List.DropRight
import Mathlib.Data.List.TakeDrop
import Mathlib.Data.List.TakeWhile

/-! # How a cursor moves

Reading a token and reading the rest of a line only take items off the front of
what is unread, and the location is that behind the characters taken. They fail
at a fault only, the first one that is unread, which is taken too.
-/

namespace Forth

namespace Item

def isFault : Item → Bool
  | fault _ => true
  | char _ | seam => false

def gap (items : List Item) : List Item := items.takeWhile isGap

/-- The first token and the seams in it. -/
def word (items : List Item) : List Item := (items.dropWhile isGap).takeWhile isInk

def afterWord (items : List Item) : List Item := (items.dropWhile isGap).dropWhile isInk

theorem gap_append_word_append_afterWord (items : List Item) :
    gap items ++ (word items ++ afterWord items) = items := by
  rw [word, afterWord, List.takeWhile_append_dropWhile, gap, List.takeWhile_append_dropWhile]

theorem length_afterWord_lt {items : List Item} (h : word items ≠ []) :
    (afterWord items).length < items.length := by
  have hlength := congrArg List.length (gap_append_word_append_afterWord items)
  have hpos : 0 < (word items).length := List.length_pos_iff.mpr h
  simp only [List.length_append] at hlength
  omega

def wordText (items : List Item) : String := String.ofList (chars (word items))

theorem isFault_of_mem_gap {items : List Item} {i : Item} (h : i ∈ gap items) :
    i.isFault = false := by
  have hi : isGap i = true := List.mem_takeWhile_imp h
  cases i <;> first | rfl | cases hi

theorem isFault_of_mem_word {items : List Item} {i : Item} (h : i ∈ word items) :
    i.isFault = false := by
  have hi : isInk i = true := List.mem_takeWhile_imp h
  cases i <;> first | rfl | cases hi

theorem splitLine_cases (items : List Item) :
    (∃ c rest, items.dropWhile isInLine = char c :: rest ∧
      splitLine items = (items.takeWhile isInLine ++ [char c], rest)) ∨
    splitLine items = (items.takeWhile isInLine, items.dropWhile isInLine) := by
  rw [splitLine, List.span_eq_takeWhile_dropWhile]
  cases hd : items.dropWhile isInLine with
  | nil => exact .inr rfl
  | cons i rest =>
    cases i with
    | char c => exact .inl ⟨c, rest, rfl, rfl⟩
    | seam => exact .inr rfl
    | fault reason => exact .inr rfl

theorem splitLine_append (items : List Item) :
    (splitLine items).1 ++ (splitLine items).2 = items := by
  have h := List.takeWhile_append_dropWhile (p := isInLine) (l := items)
  obtain ⟨c, rest, hd, hs⟩ | hs := splitLine_cases items
  · rw [hs, List.append_assoc, List.singleton_append, ← hd, h]
  · rw [hs, h]

/-- What follows a comment: the next line. A line ends behind its newline, or where the reader
reported the end of its input. -/
def afterComment (items : List Item) : List Item := (splitLine (items.dropWhile isSeam)).2

theorem length_afterComment_le (items : List Item) :
    (afterComment items).length ≤ items.length := by
  have hline := congrArg List.length (splitLine_append (items.dropWhile isSeam))
  have hseams : (items.dropWhile isSeam).length ≤ items.length :=
    (List.dropWhile_sublist _).length_le
  rw [List.length_append] at hline
  rw [afterComment]
  omega

theorem isFault_of_mem_splitLine {items : List Item} {i : Item} (h : i ∈ (splitLine items).1) :
    i.isFault = false := by
  have hline (j : Item) (hj : j ∈ items.takeWhile isInLine) : j.isFault = false := by
    have hj : isInLine j = true := List.mem_takeWhile_imp hj
    cases j <;> first | rfl | cases hj
  obtain ⟨c, rest, -, hs⟩ | hs := splitLine_cases items
  · rw [hs, List.mem_append, List.mem_singleton] at h
    rcases h with h | rfl
    · exact hline i h
    · rfl
  · rw [hs] at h
    exact hline i h

theorem chars_append (items more : List Item) : chars (items ++ more) = chars items ++ chars more :=
  List.filterMap_append

end Item

namespace Source

theorem moveBy_moveBy (s : Source) (taken rest more last : List Item) :
    (s.moveBy taken rest).moveBy more last = s.moveBy (taken ++ more) last := by
  simp [moveBy, Item.chars_append, Location.advanceBy_append]

theorem peek_of_nil {s : Source} (h : s.unread = []) : peek s = .ok none s := by
  obtain ⟨location, unread, reserve⟩ := s
  cases h
  rfl

theorem peek_of_fault {s : Source} {reason : String} {rest : List Item}
    (h : s.unread = .fault reason :: rest) :
    peek s = .error { cause := .io reason } { s with unread := rest } := by
  obtain ⟨location, unread, reserve⟩ := s
  cases h
  rfl

theorem peek_of_char {s : Source} {c : Char} {rest : List Item} (h : s.unread = .char c :: rest) :
    peek s = .ok (some c) s := by
  obtain ⟨location, unread, reserve⟩ := s
  cases h
  rfl

theorem dropWhile_isGap_cases (items : List Item) :
    items.dropWhile Item.isGap = [] ∨
    (∃ reason rest, items.dropWhile Item.isGap = .fault reason :: rest) ∨
    ∃ c rest, items.dropWhile Item.isGap = .char c :: rest ∧ isBlank c = false := by
  have h := List.head?_dropWhile_not Item.isGap items
  cases hd : items.dropWhile Item.isGap with
  | nil => exact .inl rfl
  | cons i rest =>
    have hi : Item.isGap i = false := by simpa [hd] using h
    cases i with
    | char c => exact .inr (.inr ⟨c, rest, rfl, hi⟩)
    | seam => cases hi
    | fault reason => exact .inr (.inl ⟨reason, rest, rfl⟩)

theorem afterWord_cases (items : List Item) :
    Item.afterWord items = [] ∨
    (∃ reason rest, Item.afterWord items = .fault reason :: rest) ∨
    ∃ c rest, Item.afterWord items = .char c :: rest ∧ isBlank c = true := by
  have h := List.head?_dropWhile_not Item.isInk (items.dropWhile Item.isGap)
  cases hd : Item.afterWord items with
  | nil => exact .inl rfl
  | cons i rest =>
    have hi : Item.isInk i = false := by
      rw [Item.afterWord] at hd
      simpa [hd] using h
    cases i with
    | char c => exact .inr (.inr ⟨c, rest, rfl, by simpa [Item.isInk] using hi⟩)
    | seam => cases hi
    | fault reason => exact .inr (.inl ⟨reason, rest, rfl⟩)

def atWord (s : Source) : Source := s.moveBy (Item.gap s.unread) (s.unread.dropWhile Item.isGap)

def pastWord (s : Source) : Source :=
  s.moveBy (Item.gap s.unread ++ Item.word s.unread) (Item.afterWord s.unread)

theorem skipBlanks_apply (s : Source) : skipBlanks s = .ok () s.atWord := rfl

theorem takeInk_atWord (s : Source) :
    takeInk s.atWord = .ok (Item.wordText s.unread) s.pastWord := by
  rw [pastWord, ← moveBy_moveBy]
  rfl

theorem nextToken_of_nil {s : Source} (h : s.unread.dropWhile Item.isGap = []) :
    nextToken s = .ok none s.atWord := by
  rw [nextToken, bind_of_ok (skipBlanks_apply s)]
  exact bind_of_ok (peek_of_nil (s := s.atWord) h)

theorem nextToken_of_fault {s : Source} {reason : String} {rest : List Item}
    (h : s.unread.dropWhile Item.isGap = .fault reason :: rest) :
    nextToken s = .error { cause := .io reason } { s.atWord with unread := rest } := by
  rw [nextToken, bind_of_ok (skipBlanks_apply s)]
  exact bind_of_error (peek_of_fault (s := s.atWord) h)

def wordToken (s : Source) : Token where
  text := Item.wordText s.unread
  location := s.atWord.location

theorem nextToken_of_char {s : Source} {c : Char} {rest : List Item}
    (h : s.unread.dropWhile Item.isGap = .char c :: rest) :
    nextToken s = (do let _ ← peek; return some s.wordToken) s.pastWord := by
  rw [nextToken, bind_of_ok (skipBlanks_apply s), bind_of_ok (peek_of_char (s := s.atWord) h)]
  change (takeInk >>= fun text => do
    let _ ← peek
    return some ⟨text, s.atWord.location⟩ : SourceM (Option Token)) s.atWord = _
  exact bind_of_ok (takeInk_atWord s)

/-- The cursor moved from `s` to `t` past items that are no faults. -/
def Moved (s t : Source) : Prop :=
  ∃ taken, s.unread = taken ++ t.unread ∧ (∀ i ∈ taken, i.isFault = false) ∧
    t = s.moveBy taken t.unread

/-- The cursor moved from `s` to a fault, which was taken as well and is the failure. -/
def Met (s : Source) (failure : Failure) (t : Source) : Prop :=
  ∃ u reason, Moved s u ∧ u.unread = .fault reason :: t.unread ∧
    t = { u with unread := t.unread } ∧ failure = { cause := .io reason }

theorem Moved.trans {s t u : Source} (h : Moved s t) (k : Moved t u) : Moved s u := by
  obtain ⟨taken, hs, hf, ht⟩ := h
  obtain ⟨more, htu, hg, hu⟩ := k
  refine ⟨taken ++ more, by rw [hs, htu, List.append_assoc], fun i hi => ?_, ?_⟩
  · exact (List.mem_append.mp hi).elim (hf i) (hg i)
  · rw [← moveBy_moveBy s taken t.unread, ← ht]
    exact hu

theorem Moved.met {s t u : Source} {failure : Failure} (h : Moved s t) (k : Met t failure u) :
    Met s failure u := by
  obtain ⟨v, reason, hv, hu⟩ := k
  exact ⟨v, reason, h.trans hv, hu⟩

theorem Moved.length_le {s t : Source} (h : Moved s t) : t.unread.length ≤ s.unread.length := by
  obtain ⟨taken, hs, -⟩ := h
  simp [hs]

theorem Moved.mem {s t : Source} (h : Moved s t) {i : Item} (hi : i ∈ t.unread) : i ∈ s.unread := by
  obtain ⟨taken, hs, -⟩ := h
  exact hs ▸ List.mem_append_right taken hi

theorem Met.length_lt {s t : Source} {failure : Failure} (h : Met s failure t) :
    t.unread.length < s.unread.length := by
  obtain ⟨u, reason, hu, hr, -⟩ := h
  have hle := hu.length_le
  rw [hr, List.length_cons] at hle
  exact hle

theorem Met.find?_isFault {s t : Source} {failure : Failure} (h : Met s failure t) :
    ∃ reason, s.unread.find? Item.isFault = some (.fault reason) ∧
      failure = { cause := .io reason } := by
  obtain ⟨u, reason, ⟨taken, hs, hf, -⟩, hr, -, hfail⟩ := h
  refine ⟨reason, ?_, hfail⟩
  rw [hs, hr, List.find?_append, List.find?_eq_none.mpr fun i hi => by simp [hf i hi]]
  rfl

def Faultless (s : Source) : Prop := ∀ i ∈ s.unread, i.isFault = false

theorem Faultless.of_moved {s t : Source} (hs : s.Faultless) (h : Moved s t) : t.Faultless :=
  fun i hi => hs i (h.mem hi)

theorem Faultless.not_met {s t : Source} {failure : Failure} (hs : s.Faultless) :
    ¬Met s failure t := by
  rintro h
  obtain ⟨reason, hfind, -⟩ := h.find?_isFault
  have hfault := hs _ (List.mem_of_find?_eq_some hfind)
  cases hfault

theorem Met.isFatal {s t : Source} {failure : Failure} (h : Met s failure t) :
    failure.isFatal = true := by
  obtain ⟨u, reason, -, -, -, rfl⟩ := h
  rfl

theorem moved_atWord (s : Source) : Moved s s.atWord := by
  refine ⟨Item.gap s.unread, ?_, fun i => Item.isFault_of_mem_gap, rfl⟩
  exact (List.takeWhile_append_dropWhile).symm

theorem moved_pastWord (s : Source) : Moved s s.pastWord := by
  refine ⟨Item.gap s.unread ++ Item.word s.unread, ?_, fun i hi => ?_, rfl⟩
  · rw [List.append_assoc]
    exact (Item.gap_append_word_append_afterWord s.unread).symm
  · exact (List.mem_append.mp hi).elim Item.isFault_of_mem_gap Item.isFault_of_mem_word

theorem word_ne_nil {items : List Item} {c : Char} {rest : List Item}
    (h : items.dropWhile Item.isGap = .char c :: rest) (hc : isBlank c = false) :
    Item.word items ≠ [] := by
  rw [Item.word, h, List.takeWhile_cons_of_pos (by simp [Item.isInk, hc])]
  exact List.cons_ne_nil _ _

inductive TokenRead (s : Source) : EStateM.Result Failure Source (Option Token) → Prop
  | none : Moved s s.atWord → s.atWord.unread = [] → TokenRead s (.ok none s.atWord)
  | some : Moved s s.pastWord → Item.word s.unread ≠ [] →
      TokenRead s (.ok (some s.wordToken) s.pastWord)
  | failed {failure : Failure} {t : Source} : Met s failure t → TokenRead s (.error failure t)

theorem tokenRead_nextToken (s : Source) : TokenRead s (nextToken s) := by
  obtain h | ⟨reason, rest, h⟩ | ⟨c, rest, h, hc⟩ := dropWhile_isGap_cases s.unread
  · rw [nextToken_of_nil h]
    exact .none (moved_atWord s) h
  · rw [nextToken_of_fault h]
    exact .failed ⟨s.atWord, reason, moved_atWord s, h, rfl, rfl⟩
  · rw [nextToken_of_char h]
    obtain ha | ⟨reason, after, ha⟩ | ⟨d, after, ha, -⟩ := afterWord_cases s.unread
    · rw [bind_of_ok (peek_of_nil (s := s.pastWord) ha)]
      exact .some (moved_pastWord s) (word_ne_nil h hc)
    · rw [bind_of_error (peek_of_fault (s := s.pastWord) ha)]
      exact .failed ⟨s.pastWord, reason, moved_pastWord s, ha, rfl, rfl⟩
    · rw [bind_of_ok (peek_of_char (s := s.pastWord) ha)]
      exact .some (moved_pastWord s) (word_ne_nil h hc)

section NextToken

variable {s t : Source}

theorem tokenRead_of_eq {r : EStateM.Result Failure Source (Option Token)}
    (h : nextToken s = r) : TokenRead s r := by
  rw [← h]
  exact tokenRead_nextToken s

theorem moved_of_nextToken {token : Option Token} (h : nextToken s = .ok token t) : Moved s t := by
  cases tokenRead_of_eq h with
  | none hm => exact hm
  | some hm => exact hm

theorem unread_of_nextToken_none (h : nextToken s = .ok none t) : t.unread = [] := by
  cases tokenRead_of_eq h with
  | none _ hu => exact hu

theorem eq_of_nextToken_of_nil {token : Option Token} (h : nextToken s = .ok token t)
    (hs : s.unread = []) : t = s := by
  obtain ⟨taken, ht, -, hmove⟩ := moved_of_nextToken h
  rw [hs] at ht
  obtain ⟨rfl, hu⟩ := List.append_eq_nil_iff.mp ht.symm
  rw [hmove, hu]
  obtain ⟨location, unread, reserve⟩ := s
  cases hs
  rfl

theorem length_lt_of_nextToken {token : Token} (h : nextToken s = .ok (some token) t) :
    t.unread.length < s.unread.length := by
  cases tokenRead_of_eq h with
  | some _ hword => exact Item.length_afterWord_lt hword

theorem eq_of_nextToken {token : Token} (h : nextToken s = .ok (some token) t) :
    token = s.wordToken ∧ t = s.pastWord := by
  cases tokenRead_of_eq h with
  | some => exact ⟨rfl, rfl⟩

theorem word_ne_nil_of_nextToken {token : Token} (h : nextToken s = .ok (some token) t) :
    Item.word s.unread ≠ [] := by
  cases tokenRead_of_eq h with
  | some _ hword => exact hword

theorem dropWhile_isGap_of_nextToken_none (h : nextToken s = .ok none t) :
    s.unread.dropWhile Item.isGap = [] := by
  cases tokenRead_of_eq h with
  | none _ hu => exact hu

theorem met_of_nextToken {failure : Failure} (h : nextToken s = .error failure t) :
    Met s failure t := by
  cases tokenRead_of_eq h with
  | failed hm => exact hm

end NextToken

theorem restOfLine_of_nil {s : Source} (h : s.unread = []) : restOfLine s = .ok none s :=
  bind_of_ok (peek_of_nil h)

theorem restOfLine_of_fault {s : Source} {reason : String} {rest : List Item}
    (h : s.unread = .fault reason :: rest) :
    restOfLine s = .error { cause := .io reason } { s with unread := rest } :=
  bind_of_error (peek_of_fault h)

theorem restOfLine_of_char {s : Source} {c : Char} {rest : List Item}
    (h : s.unread = .char c :: rest) :
    restOfLine s =
      .ok (some (String.ofList (Item.chars (Item.splitLine s.unread).1)))
        (s.moveBy (Item.splitLine s.unread).1 (Item.splitLine s.unread).2) :=
  bind_of_ok (peek_of_char h)

def pastSeams (s : Source) : Source :=
  s.moveBy (s.unread.takeWhile Item.isSeam) (s.unread.dropWhile Item.isSeam)

theorem moved_pastSeams (s : Source) : Moved s s.pastSeams := by
  refine ⟨s.unread.takeWhile Item.isSeam, ?_, fun i hi => ?_, rfl⟩
  · exact (List.takeWhile_append_dropWhile).symm
  · have hi : Item.isSeam i = true := List.mem_takeWhile_imp hi
    cases i <;> first | rfl | cases hi

theorem dropWhile_isSeam_cases (items : List Item) :
    items.dropWhile Item.isSeam = [] ∨
    (∃ reason rest, items.dropWhile Item.isSeam = .fault reason :: rest) ∨
    ∃ c rest, items.dropWhile Item.isSeam = .char c :: rest := by
  have h := List.head?_dropWhile_not Item.isSeam items
  cases hd : items.dropWhile Item.isSeam with
  | nil => exact .inl rfl
  | cons i rest =>
    have hi : Item.isSeam i = false := by simpa [hd] using h
    cases i with
    | char c => exact .inr (.inr ⟨c, rest, rfl⟩)
    | seam => cases hi
    | fault reason => exact .inr (.inl ⟨reason, rest, rfl⟩)

theorem chars_takeWhile_isSeam (items : List Item) :
    Item.chars (items.takeWhile Item.isSeam) = [] := by
  refine List.filterMap_eq_nil_iff.mpr fun i hi => ?_
  have hi : Item.isSeam i = true := List.mem_takeWhile_imp hi
  cases i <;> first | rfl | cases hi

theorem pastSeams_eq (s : Source) :
    s.pastSeams = { s with unread := s.unread.dropWhile Item.isSeam } := by
  simp [pastSeams, moveBy, chars_takeWhile_isSeam]

theorem peek_pastSeams (s : Source) : peek s.pastSeams = peek s := by
  rw [pastSeams_eq]
  simp only [peek, List.dropWhile_idempotent]

theorem restOfLine_pastSeams (s : Source) : restOfLine s.pastSeams = restOfLine s := by
  simp only [restOfLine, bind_apply, peek_pastSeams]

inductive LineRead (s : Source) : EStateM.Result Failure Source (Option String) → Prop
  | ok {line : Option String} {t : Source} : Moved s t →
      t.unread = Item.afterComment s.unread → LineRead s (.ok line t)
  | failed {failure : Failure} {t : Source} : Met s failure t → LineRead s (.error failure t)

theorem lineRead_restOfLine (s : Source) : LineRead s (restOfLine s) := by
  have hs : Moved s s.pastSeams := moved_pastSeams s
  rw [← restOfLine_pastSeams]
  obtain h | ⟨reason, rest, h⟩ | ⟨c, rest, h⟩ := dropWhile_isSeam_cases s.unread
  · rw [restOfLine_of_nil (s := s.pastSeams) h]
    refine .ok hs ?_
    rw [Item.afterComment, h]
    exact h
  · rw [restOfLine_of_fault (s := s.pastSeams) h]
    exact .failed ⟨s.pastSeams, reason, hs, h, rfl, rfl⟩
  · rw [restOfLine_of_char (s := s.pastSeams) h]
    refine .ok (hs.trans ⟨_, ?_, fun i => Item.isFault_of_mem_splitLine, rfl⟩) rfl
    exact (Item.splitLine_append s.pastSeams.unread).symm

section RestOfLine

variable {s t : Source}

theorem lineRead_of_eq {r : EStateM.Result Failure Source (Option String)}
    (h : restOfLine s = r) : LineRead s r := by
  rw [← h]
  exact lineRead_restOfLine s

theorem moved_of_restOfLine {line : Option String} (h : restOfLine s = .ok line t) :
    Moved s t := by
  cases lineRead_of_eq h with
  | ok hm => exact hm

theorem unread_of_restOfLine {line : Option String} (h : restOfLine s = .ok line t) :
    t.unread = Item.afterComment s.unread := by
  cases lineRead_of_eq h with
  | ok _ hu => exact hu

theorem met_of_restOfLine {failure : Failure} (h : restOfLine s = .error failure t) :
    Met s failure t := by
  cases lineRead_of_eq h with
  | failed hm => exact hm

end RestOfLine

end Source

end Forth
