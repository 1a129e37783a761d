import Forth.Proofs.Source.Runs

/-! # A cursor loses, repeats and misplaces nothing

After any history the text is what was read followed by what is unread, and the
location counts what was read. Every operation is then told by the unread part
alone.
-/

namespace Forth.Source

/-- The source has read `before` of its text, has `rest` in front of it, and reads on from there. -/
structure Faithful (path : String) (before rest : List Char) (s : Source) : Prop where
  unread : s.unread = rest.map .char
  location : s.location =
    { path, line := 1 + before.count '\n',
      column := 1 + (before.rtakeWhile (· ≠ '\n')).length }
  peek : Source.peek s = .ok rest.head? s
  next : Source.next s = .ok rest.head? (between path (before ++ rest.take 1) (rest.drop 1))
  restOfLine : ∃ line left, rest = line ++ left ∧
    (line = rest ∧ '\n' ∉ rest ∨ ∃ start, line = start ++ ['\n'] ∧ '\n' ∉ start) ∧
    Source.restOfLine s =
      .ok (if rest = [] then none else some (String.ofList line))
        (between path (before ++ line) left)
  nextToken : ∃ gap word left, rest = gap ++ word ++ left ∧
    (∀ c ∈ gap, isBlank c = true) ∧ (∀ c ∈ word, isBlank c = false) ∧
    (∀ c ∈ left.head?, isBlank c = true) ∧ (word = [] → left = []) ∧
    (word = [] ↔ ∀ c ∈ rest, isBlank c = true) ∧
    Source.nextToken s =
      .ok
        (if word = [] then none
        else some
          { text := String.ofList word, location := Location.behind path (before ++ gap) })
        (between path (before ++ gap ++ word) left)

theorem line_cases (text : List Char) :
    Text.line text = text ∧ '\n' ∉ text ∨
      ∃ start, Text.line text = start ++ ['\n'] ∧ '\n' ∉ start := by
  have hstart : '\n' ∉ text.takeWhile (· ≠ '\n') := by
    intro h
    have hne := List.mem_takeWhile_imp h
    simp at hne
  have hhead := List.head?_dropWhile_not (fun c => decide (c ≠ '\n')) text
  cases hd : text.dropWhile (· ≠ '\n') with
  | nil =>
    have htext := List.takeWhile_append_dropWhile (p := (· ≠ '\n')) (l := text)
    rw [hd, List.append_nil] at htext
    left
    constructor
    · rw [Text.line, hd, List.take_nil, List.append_nil, htext]
    · rwa [htext] at hstart
  | cons c rest =>
    rw [hd] at hhead
    have hc : c = '\n' := by simpa using hhead
    subst hc
    exact .inr ⟨_, by rw [Text.line, hd]; rfl, hstart⟩

theorem faithful_between (path : String) (before rest : List Char) :
    Faithful path before rest (between path before rest) where
  unread := rfl
  location := rfl
  peek := peek_between path before rest
  next := next_between path before rest
  restOfLine := ⟨Text.line rest, Text.afterLine rest, (Text.line_append_afterLine rest).symm,
    line_cases rest, restOfLine_between path before rest⟩
  nextToken := by
    refine ⟨Text.gap rest, Text.word rest, Text.afterWord rest,
      (Text.gap_append_word_append_afterWord rest).symm, fun c => Text.isBlank_of_mem_gap,
      fun c => Text.isBlank_of_mem_word, fun c => Text.isBlank_of_head?_afterWord, ?_,
      word_eq_nil_iff rest, nextToken_between path before rest⟩
    intro hword
    have hblank := (word_eq_nil_iff rest).mp hword
    rw [Text.afterWord, List.dropWhile_eq_nil_iff.mpr hblank]
    rfl

/-- Each operation moves a part of the text across the cursor. -/
theorem exists_between_perform (operation : Operation) (path : String) (before rest : List Char) :
    ∃ taken left, rest = taken ++ left ∧
      (perform operation (between path before rest)).state =
        between path (before ++ taken) left := by
  cases operation with
  | peek =>
    refine ⟨[], rest, rfl, ?_⟩
    rw [perform, bind_of_ok (peek_between path before rest), List.append_nil]
    rfl
  | next =>
    refine ⟨rest.take 1, rest.drop 1, (List.take_append_drop 1 rest).symm, ?_⟩
    rw [perform, bind_of_ok (next_between path before rest)]
    rfl
  | restOfLine =>
    refine ⟨Text.line rest, Text.afterLine rest, (Text.line_append_afterLine rest).symm, ?_⟩
    rw [perform, bind_of_ok (restOfLine_between path before rest)]
    rfl
  | nextToken =>
    refine ⟨Text.gap rest ++ Text.word rest, Text.afterWord rest,
      (Text.gap_append_word_append_afterWord rest).symm, ?_⟩
    rw [perform, bind_of_ok (nextToken_between path before rest), ← List.append_assoc]
    rfl

theorem exists_between_after (path : String) (before rest : List Char)
    (operations : List Operation) :
    ∃ taken left, rest = taken ++ left ∧
      (between path before rest).after operations = between path (before ++ taken) left := by
  induction operations generalizing before rest with
  | nil => exact ⟨[], rest, rfl, by rw [List.append_nil]; rfl⟩
  | cons operation more ih =>
    obtain ⟨first, middle, rfl, hstep⟩ := exists_between_perform operation path before rest
    obtain ⟨taken, left, rfl, hmore⟩ := ih (before ++ first) middle
    refine ⟨first ++ taken, left, by rw [List.append_assoc], ?_⟩
    rw [after, List.foldl_cons, hstep, ← List.append_assoc]
    exact hmore

/-- Whatever was called before, the cursor stands where it should and reads on from there; so the
tokens of a text are its runs. -/
theorem faithful_after_ofText (path text : String) (operations : List Operation) :
    (∃ before rest, text.toList = before ++ rest ∧
      Faithful path before rest ((ofText path text).after operations)) ∧
    ∃ tokens, tokenize path text = .ok tokens ∧
      (∀ t, t ∈ tokens ↔ t.IsRun path text.toList) ∧
      tokens.Pairwise fun a b => compare a.location b.location = .lt := by
  constructor
  · obtain ⟨before, rest, htext, hafter⟩ := exists_between_after path [] text.toList operations
    refine ⟨before, rest, htext, ?_⟩
    rw [ofText_eq_between, hafter]
    exact faithful_between path before rest
  · obtain ⟨tokens, htokens, hruns⟩ := exists_tokenize path text
    refine ⟨tokens, htokens, fun t => ?_, hruns.pairwise_location⟩
    exact hruns.mem_iff (.inl nofun)

end Forth.Source
