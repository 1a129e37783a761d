import Forth.Proofs.Source.Insertion

/-! # A text and what comes on the next line

Two cursors move through a text and through one that goes on on the next line.
As long as no comment is read but behind a token, the second one does not pass
the newline before the first one has met its end. What it finds from there is
what a cursor finds that begins with the rest, up to its places.
-/

namespace Forth.Source

/-- Both cursors are at the same place in the first text. -/
inductive Within (more : List Char) : Source → Source → Prop
  | mk (path : String) (before rest : List Char) :
      Within more (between path before rest) (between path before (rest ++ '\n' :: more))

/-- The cursors are at the same place, or a comment has taken the first one to its end and the second
one past the newline. -/
inductive Leading (more : List Char) : Source → Source → Prop
  | within {a b : Source} : Within more a b → Leading more a b
  | past (path : String) (before passed : List Char) :
      Leading more (between path before []) (between path passed more)

/-- The cursors have the same text in front of them. -/
inductive Level : Source → Source → Prop
  | mk (path other : String) (before passed rest : List Char) :
      Level (between path before rest) (between other passed rest)

/-- The cursors have the same text in front of them behind some white space. -/
inductive Rejoined : Source → Source → Prop
  | mk (path other : String) (before passed : List Char) {gap space : List Char}
      (rest : List Char) : (∀ c ∈ gap, isBlank c = true) → (∀ c ∈ space, isBlank c = true) →
      Rejoined (between path before (gap ++ rest)) (between other passed (space ++ rest))

section

variable {more : List Char} {a b : Source}

/-- Both find the same token, and are in the first text then, or the first one finds none. -/
theorem Leading.nextToken_cases (h : Leading more a b) :
    (∃ t c d, nextToken a = .ok (some t) c ∧ nextToken b = .ok (some t) d ∧ Within more c d) ∨
      ∃ c, nextToken a = .ok none c := by
  cases h with
  | past path before passed =>
    rw [nextToken_between, if_pos (show Text.word [] = [] from rfl)]
    exact .inr ⟨_, rfl⟩
  | within h =>
    obtain ⟨path, before, rest⟩ := h
    by_cases hword : Text.word rest = []
    · rw [nextToken_between, if_pos hword]
      exact .inr ⟨_, rfl⟩
    · rw [nextToken_append_blank path before isBlank_newline hword, nextToken_between,
        if_neg hword, wordToken_between]
      exact .inl ⟨_, _, _, rfl, rfl, .mk ..⟩

theorem Within.restOfLine (h : Within more a b) :
    ∃ x y c d, Source.restOfLine a = .ok x c ∧ Source.restOfLine b = .ok y d ∧
      Leading more c d := by
  obtain ⟨path, before, rest⟩ := h
  rw [restOfLine_between, restOfLine_between]
  by_cases hline : '\n' ∈ rest
  · rw [(Text.line_append_of_mem hline _).1, (Text.line_append_of_mem hline _).2]
    exact ⟨_, _, _, _, rfl, rfl, .within (.mk ..)⟩
  · rw [Text.afterLine_of_not_mem hline, Text.afterLine_append_newline hline]
    exact ⟨_, _, _, _, rfl, rfl, .past ..⟩

/-- Where the first cursor finds no token, the second one is in front of what is left. -/
theorem Leading.rejoined {c : Source} (h : Leading more a b) (hn : nextToken a = .ok none c)
    (path : String) : Rejoined (between path [] more) b := by
  have hnone : ∀ c ∈ ([] : List Char), isBlank c = true := nofun
  cases h with
  | past other before passed => exact .mk path other [] passed more hnone hnone
  | within h =>
    obtain ⟨other, before, rest⟩ := h
    have hword : Text.word rest = [] := by
      by_contra hword
      rw [nextToken_between, if_neg hword] at hn
      cases hn
    have hblank : ∀ c ∈ rest ++ ['\n'], isBlank c = true := by
      intro c hc
      rcases List.mem_append.mp hc with hc | hc
      · exact (word_eq_nil_iff rest).mp hword c hc
      · rw [List.mem_singleton.mp hc]
        exact isBlank_newline
    have h := Rejoined.mk path other [] before more hnone hblank
    simpa using h

theorem Rejoined.nextToken_cases (h : Rejoined a b) :
    (∃ c d, nextToken a = .ok none c ∧ nextToken b = .ok none d ∧ Level c d) ∨
      ∃ t u c d, nextToken a = .ok (some t) c ∧ nextToken b = .ok (some u) d ∧
        t.text = u.text ∧ Level c d := by
  cases h with
  | mk path other before passed rest hgap hspace =>
    rw [nextToken_append_of_blank path before hgap, nextToken_append_of_blank other passed hspace,
      nextToken_between, nextToken_between]
    by_cases hword : Text.word rest = []
    · rw [if_pos hword, if_pos hword]
      exact .inl ⟨_, _, rfl, rfl, .mk ..⟩
    · rw [if_neg hword, if_neg hword]
      exact .inr ⟨_, _, _, _, rfl, rfl, rfl, .mk ..⟩

theorem Level.rejoined (h : Level a b) : Rejoined a b := by
  have hnone : ∀ c ∈ ([] : List Char), isBlank c = true := nofun
  cases h with
  | mk path other before passed rest => exact .mk path other before passed rest hnone hnone

theorem Level.restOfLine (h : Level a b) :
    ∃ x y c d, Source.restOfLine a = .ok x c ∧ Source.restOfLine b = .ok y d ∧ Level c d := by
  cases h with
  | mk path other before passed rest =>
    rw [restOfLine_between, restOfLine_between]
    exact ⟨_, _, _, _, rfl, rfl, .mk ..⟩

end

end Forth.Source
