import Forth.Proofs.Source.Runs

/-! # Sources that spell tokens

Where tokens with white space between them stand in front of the cursor, they
are read one after the other, each with its place. What stands behind the last
of them is not looked at.
-/

namespace Forth

namespace Item

/-- A token in front of these items ends there. -/
def Break (items : List Item) : Prop :=
  ∀ i ∈ items.head?, ∃ c, i = char c ∧ isBlank c = true

theorem Break.map_char {text : List Char} (htext : ∀ c ∈ text.head?, isBlank c = true)
    {rest : List Item} (hrest : Break rest) : Break (text.map char ++ rest) := by
  cases text with
  | nil => exact hrest
  | cons c text =>
    rintro i hi
    obtain rfl : char c = i := by simpa using hi
    exact ⟨c, rfl, htext c rfl⟩

theorem Break.cases {rest : List Item} (h : Break rest) :
    rest = [] ∨ ∃ c more, rest = char c :: more ∧ isBlank c = true := by
  cases rest with
  | nil => exact .inl rfl
  | cons i more =>
    obtain ⟨c, rfl, hc⟩ := h i rfl
    exact .inr ⟨c, more, rfl, hc⟩

section Spelled

variable {gap word : List Char} {rest : List Item}

theorem takeWhile_isGap_spelled (hgap : ∀ c ∈ gap, isBlank c = true) (hword : word ≠ [])
    (hink : ∀ c ∈ word, isBlank c = false) :
    ((gap ++ word).map char ++ rest).takeWhile isGap = gap.map char ∧
      ((gap ++ word).map char ++ rest).dropWhile isGap = word.map char ++ rest := by
  obtain ⟨c, more, rfl⟩ := List.exists_cons_of_ne_nil hword
  have hall : ∀ i ∈ gap.map char, isGap i = true := by
    intro i hi
    obtain ⟨d, hd, rfl⟩ := List.mem_map.mp hi
    exact hgap d hd
  have hc : ¬isGap (char c) = true := by
    simpa [isGap] using hink c List.mem_cons_self
  rw [List.map_append, List.append_assoc]
  constructor
  · rw [List.takeWhile_append_of_pos hall, List.map_cons, List.cons_append,
      List.takeWhile_cons_of_neg hc, List.append_nil]
  · rw [List.dropWhile_append_of_pos hall, List.map_cons, List.cons_append,
      List.dropWhile_cons_of_neg hc]

theorem takeWhile_isInk_spelled (hink : ∀ c ∈ word, isBlank c = false) (hrest : Break rest) :
    (word.map char ++ rest).takeWhile isInk = word.map char ∧
      (word.map char ++ rest).dropWhile isInk = rest := by
  have hall : ∀ i ∈ word.map char, isInk i = true := by
    intro i hi
    obtain ⟨d, hd, rfl⟩ := List.mem_map.mp hi
    simpa [isInk] using hink d hd
  rw [List.takeWhile_append_of_pos hall, List.dropWhile_append_of_pos hall]
  obtain rfl | ⟨c, more, rfl, hc⟩ := hrest.cases
  · simp
  · have hstop : ¬isInk (char c) = true := by simp [isInk, hc]
    rw [List.takeWhile_cons_of_neg hstop, List.dropWhile_cons_of_neg hstop, List.append_nil]
    exact ⟨rfl, rfl⟩

end Spelled

end Item

/-- A run in front of a text whose runs are known, with what makes it one as tests. -/
theorem Text.Runs.cons {path : String} {before gap word rest : List Char} {tokens : List Token}
    (hgap : gap.all isBlank = true) (hword : word ≠ []) (hink : word.any isBlank = false)
    (hrest : rest.head?.all isBlank = true) (h : Runs path (before ++ gap ++ word) rest tokens) :
    Runs path before (gap ++ word ++ rest)
      ({ text := String.ofList word, location := Location.behind path (before ++ gap) } ::
        tokens) := by
  refine .run (List.all_eq_true.mp hgap) hword (fun c hc => ?_) (fun c hc => ?_) h
  · simpa using List.any_eq_false.mp hink c hc
  · rw [hc] at hrest
    exact hrest

theorem Text.Runs.length_le {path : String} {before text : List Char} {tokens : List Token}
    (h : Runs path before text tokens) : tokens.length ≤ text.length := by
  induction h with
  | done => exact Nat.zero_le _
  | @run before gap word rest tokens _ hword _ _ _ ih =>
    have hpos := List.length_pos_iff.mpr hword
    simp only [List.length_cons, List.length_append]
    omega

/-- Not empty, and without white space. -/
def Text.IsWord (text : String) : Prop :=
  text.toList ≠ [] ∧ ∀ c ∈ text.toList, isBlank c = false

theorem Text.isWord_of_any {text : String} (hne : text.toList ≠ [])
    (hink : text.toList.any isBlank = false) : IsWord text := by
  refine ⟨hne, fun c hc => ?_⟩
  simpa using List.any_eq_false.mp hink c hc

section Intercalate

theorem exists_gap_intercalate (w : String) (words : List String) :
    ∃ gap, (∀ c ∈ gap, isBlank c = true) ∧
      (∀ c ∈ (gap ++ (" ".intercalate words).toList).head?, isBlank c = true) ∧
      (" ".intercalate (w :: words)).toList = w.toList ++ (gap ++ (" ".intercalate words).toList) := by
  cases words with
  | nil => exact ⟨[], by simp, by simp, by simp⟩
  | cons u words =>
    have hspace : isBlank ' ' = true := by decide
    exact ⟨[' '], by simpa using hspace, by simpa using hspace, by simp⟩

/-- Words with single spaces between them are the tokens of the text that they make. -/
theorem exists_runs_intercalate (path : String) {words : List String}
    (hwords : ∀ w ∈ words, Text.IsWord w) (before : List Char) {gap : List Char}
    (hgap : ∀ c ∈ gap, isBlank c = true) :
    ∃ tokens, Text.Runs path before (gap ++ (" ".intercalate words).toList) tokens ∧
      tokens.map Token.text = words := by
  induction words generalizing before gap with
  | nil => exact ⟨[], by simpa using .done hgap, rfl⟩
  | cons w words ih =>
    obtain ⟨hword, hink⟩ := hwords w List.mem_cons_self
    obtain ⟨gap', hgap', hhead, htext⟩ := exists_gap_intercalate w words
    obtain ⟨tokens, hruns, hmap⟩ := ih (fun u hu => hwords u (List.mem_cons_of_mem w hu))
      (before ++ gap ++ w.toList) hgap'
    have hrun := Text.Runs.run hgap hword hink hhead hruns
    rw [List.append_assoc, ← htext] at hrun
    exact ⟨_, hrun, by rw [List.map_cons, hmap, String.ofList_toList]⟩

end Intercalate

namespace Source

theorem nextToken_of_spelled {s : Source} {gap word : List Char} {rest : List Item}
    (hgap : ∀ c ∈ gap, isBlank c = true) (hword : word ≠ [])
    (hink : ∀ c ∈ word, isBlank c = false) (hrest : Item.Break rest)
    (hs : s.unread = (gap ++ word).map .char ++ rest) :
    nextToken s =
      .ok (some { text := String.ofList word, location := s.location.advanceBy gap })
        (s.moveBy ((gap ++ word).map .char) rest) := by
  have hsplit : s.unread.takeWhile Item.isGap = gap.map .char ∧
      s.unread.dropWhile Item.isGap = word.map .char ++ rest := by
    rw [hs]
    exact Item.takeWhile_isGap_spelled hgap hword hink
  obtain ⟨hinkTake, hinkDrop⟩ := Item.takeWhile_isInk_spelled hink hrest
  obtain ⟨c, more, hcons⟩ := List.exists_cons_of_ne_nil hword
  have hgapItems : Item.gap s.unread = gap.map .char := hsplit.1
  have hwordItems : Item.word s.unread = word.map .char := by rw [Item.word, hsplit.2, hinkTake]
  have hafter : Item.afterWord s.unread = rest := by rw [Item.afterWord, hsplit.2, hinkDrop]
  have hpast : s.pastWord = s.moveBy ((gap ++ word).map .char) rest := by
    rw [pastWord, hgapItems, hwordItems, hafter, List.map_append]
  have htoken : s.wordToken =
      { text := String.ofList word, location := s.location.advanceBy gap } := by
    rw [wordToken, Item.wordText, hwordItems, Item.chars_map_char, atWord, hgapItems, moveBy,
      Item.chars_map_char]
  have hfirst : s.unread.dropWhile Item.isGap = .char c :: (more.map .char ++ rest) := by
    rw [hsplit.2, hcons]
    rfl
  rw [nextToken_of_char hfirst, htoken, hpast]
  -- nothing fails behind the token
  obtain rfl | ⟨d, left, rfl, -⟩ := hrest.cases
  · exact bind_of_ok (peek_of_nil rfl)
  · exact bind_of_ok (peek_of_char rfl)

/-- In front of the cursor stand the tokens, each where it says it is, with white space between
them, and then `rest`. -/
def Spells (s : Source) (tokens : List Token) (rest : List Item) : Prop :=
  ∃ path before text, s.location = Location.behind path before ∧
    s.unread = text.map .char ++ rest ∧ Text.Runs path before text tokens ∧ Item.Break rest

theorem Spells.nextToken {s : Source} {t : Token} {tokens : List Token} {rest : List Item}
    (h : s.Spells (t :: tokens) rest) :
    ∃ u, Source.nextToken s = .ok (some t) u ∧ u.Spells tokens rest := by
  obtain ⟨path, before, text, hplace, hs, hruns, hrest⟩ := h
  cases hruns with
  | @run _ gap word left _ hgap hword hink hleft hmore =>
    have hs : s.unread = (gap ++ word).map .char ++ (left.map .char ++ rest) := by
      rw [hs, List.map_append, List.append_assoc]
    refine ⟨s.moveBy ((gap ++ word).map .char) (left.map .char ++ rest), ?_,
      path, before ++ gap ++ word, left, ?_, rfl, hmore, hrest⟩
    · rw [nextToken_of_spelled hgap hword hink (hrest.map_char hleft) hs, hplace,
        Location.advanceBy_behind]
    · change s.location.advanceBy (Item.chars ((gap ++ word).map .char)) = _
      rw [Item.chars_map_char, hplace, Location.advanceBy_behind, List.append_assoc]

theorem Spells.nextToken_nil {s : Source} (h : s.Spells [] []) :
    Source.nextToken s = .ok none s.atWord := by
  obtain ⟨path, before, text, -, hs, hruns, -⟩ := h
  cases hruns with
  | done hgap =>
    refine nextToken_of_nil ?_
    rw [hs, List.append_nil, Item.dropWhile_isGap_map_char, List.dropWhile_eq_nil_iff.mpr hgap]
    rfl

theorem exists_spells_intercalate (path : String) {words : List String}
    (hwords : ∀ w ∈ words, Text.IsWord w) :
    ∃ tokens, (ofText path (" ".intercalate words)).Spells tokens [] ∧
      tokens.map Token.text = words ∧
      tokens.length < (ofText path (" ".intercalate words)).bound := by
  obtain ⟨tokens, hruns, htokens⟩ :=
    exists_runs_intercalate path hwords [] (List.forall_mem_nil (isBlank · = true))
  rw [List.nil_append] at hruns
  refine ⟨tokens, ⟨path, [], _, rfl, ?_, hruns, ?_⟩, htokens, ?_⟩
  · exact (List.append_nil _).symm
  · intro i hi
    cases hi
  · have hlength := hruns.length_le
    rw [bound, ofText, List.length_map]
    omega

end Source

end Forth
