import Forth.Proofs.Source.Text

/-! # The tokens of a text

The tokens of a text are its longest runs without white space, each at its place
and in the order in which they stand. A token is a run, every run is a token, and
locations increase along the list, so that the list is determined.
-/

namespace Forth

/-- A longest run without white space, at its place in the text. -/
def Token.IsRun (path : String) (text : List Char) (t : Token) : Prop :=
  ∃ before word after,
    text = before ++ word ++ after ∧ word ≠ [] ∧ (∀ c ∈ word, isBlank c = false) ∧
      (∀ c ∈ before.getLast?, isBlank c = true) ∧ (∀ c ∈ after.head?, isBlank c = true) ∧
      t = { text := String.ofList word, location := Location.behind path before }

namespace Text

/-- The tokens of `rest`, which stands behind `before`. -/
inductive Runs (path : String) : List Char → List Char → List Token → Prop
  | done {before gap : List Char} : (∀ c ∈ gap, isBlank c = true) → Runs path before gap []
  | run {before gap word rest : List Char} {tokens : List Token} :
      (∀ c ∈ gap, isBlank c = true) → word ≠ [] → (∀ c ∈ word, isBlank c = false) →
      (∀ c ∈ rest.head?, isBlank c = true) → Runs path (before ++ gap ++ word) rest tokens →
      Runs path before (gap ++ word ++ rest)
        ({ text := String.ofList word, location := Location.behind path (before ++ gap) } :: tokens)

theorem isBlank_of_mem_gap {text : List Char} {c : Char} (h : c ∈ gap text) : isBlank c = true :=
  List.mem_takeWhile_imp h

theorem isBlank_of_mem_word {text : List Char} {c : Char} (h : c ∈ word text) :
    isBlank c = false := by
  have hc : isLetter c = true := List.mem_takeWhile_imp h
  simpa [isLetter] using hc

theorem isBlank_of_head?_afterWord {text : List Char} {c : Char}
    (h : c ∈ (afterWord text).head?) : isBlank c = true := by
  have hhead := List.head?_dropWhile_not isLetter (text.dropWhile isBlank)
  rw [afterWord] at h
  rw [h] at hhead
  simpa [isLetter] using hhead

section Split

variable {gap word rest before found after : List Char}

/-- A run that begins behind white space does so behind all of it. -/
theorem exists_of_gap_append_eq (hgap : ∀ c ∈ gap, isBlank c = true) (hfound : found ≠ [])
    (hink : ∀ c ∈ found, isBlank c = false) (h : gap ++ rest = before ++ found ++ after) :
    ∃ more, before = gap ++ more ∧ rest = more ++ found ++ after := by
  rw [List.append_assoc, List.append_eq_append_iff] at h
  rcases h with ⟨more, rfl, rfl⟩ | ⟨extra, rfl, h⟩
  · exact ⟨more, rfl, by rw [List.append_assoc]⟩
  · cases extra with
    | nil => exact ⟨[], by simp, by simpa using h.symm⟩
    | cons c extra =>
      -- the run would begin with white space
      obtain ⟨d, found, rfl⟩ := List.exists_cons_of_ne_nil hfound
      have hc : isBlank c = true := hgap c (by simp)
      rw [List.cons_append, List.cons_append, List.cons.injEq] at h
      have hd : isBlank d = false := hink d List.mem_cons_self
      rw [h.1, hc] at hd
      cases hd

/-- Behind a run, another one is not adjacent. -/
theorem eq_or_exists_of_word_append_eq (hword : ∀ c ∈ word, isBlank c = false)
    (hrest : ∀ c ∈ rest.head?, isBlank c = true) (hne : found ≠ [])
    (hink : ∀ c ∈ found, isBlank c = false) (hlast : ∀ c ∈ before.getLast?, isBlank c = true)
    (hafter : ∀ c ∈ after.head?, isBlank c = true) (h : word ++ rest = before ++ found ++ after) :
    (before = [] ∧ found = word ∧ after = rest) ∨
      ∃ more, before = word ++ more ∧ rest = more ++ found ++ after := by
  rw [List.append_assoc, List.append_eq_append_iff] at h
  rcases h with ⟨more, rfl, rfl⟩ | ⟨tail, rfl, h⟩
  · exact .inr ⟨more, rfl, by rw [List.append_assoc]⟩
  · left
    have hbefore : before = [] := by
      refine List.getLast?_eq_none_iff.mp (Option.eq_none_iff_forall_not_mem.mpr fun c hc => ?_)
      have hmem : c ∈ before ++ tail := List.mem_append_left _ (List.mem_of_getLast? hc)
      have hblank := hlast c hc
      rw [hword c hmem] at hblank
      cases hblank
    subst hbefore
    rw [List.append_eq_append_iff] at h
    rcases h with ⟨extra, rfl, rfl⟩ | ⟨extra, rfl, rfl⟩
    · cases extra with
      | nil => exact ⟨rfl, by simp, by simp⟩
      | cons c extra =>
        have hc : isBlank c = false := hword c (by simp)
        rw [hafter c (by simp)] at hc
        cases hc
    · cases extra with
      | nil => exact ⟨rfl, by simp, by simp⟩
      | cons c extra =>
        have hc : isBlank c = false := hink c (by simp)
        rw [hrest c (by simp)] at hc
        cases hc

end Split

namespace Runs

variable {path : String} {before rest : List Char} {tokens : List Token} {t : Token}

theorem exists_behind (h : Runs path before rest tokens) (ht : t ∈ tokens) :
    ∃ skipped, t.location = Location.behind path (before ++ skipped) := by
  induction h with
  | done => cases ht
  | @run before gap word rest tokens _ _ _ _ _ ih =>
    obtain rfl | ht := List.mem_cons.mp ht
    · exact ⟨gap, rfl⟩
    · obtain ⟨skipped, hplace⟩ := ih ht
      refine ⟨gap ++ word ++ skipped, ?_⟩
      rw [hplace]
      simp only [List.append_assoc]

theorem pairwise_location (h : Runs path before rest tokens) :
    tokens.Pairwise fun a b => compare a.location b.location = .lt := by
  induction h with
  | done => exact .nil
  | @run before gap word rest tokens _ hne _ _ htokens ih =>
    refine List.pairwise_cons.mpr ⟨fun t ht => ?_, ih⟩
    obtain ⟨skipped, hplace⟩ := htokens.exists_behind ht
    have hmore : word ++ skipped ≠ [] := List.append_ne_nil_of_left_ne_nil hne skipped
    rw [hplace, List.append_assoc (before ++ gap)]
    exact Location.behind_lt path (before ++ gap) hmore

theorem mem_iff (h : Runs path before rest tokens)
    (hstart : (∀ c ∈ before.getLast?, isBlank c = true) ∨ ∀ c ∈ rest.head?, isBlank c = true) :
    t ∈ tokens ↔
      ∃ skipped found after,
        rest = skipped ++ found ++ after ∧ found ≠ [] ∧ (∀ c ∈ found, isBlank c = false) ∧
          (∀ c ∈ (before ++ skipped).getLast?, isBlank c = true) ∧
          (∀ c ∈ after.head?, isBlank c = true) ∧
          t = { text := String.ofList found,
                location := Location.behind path (before ++ skipped) } := by
  induction h with
  | @done before gap hgap =>
    refine ⟨nofun, ?_⟩
    rintro ⟨skipped, found, after, rfl, hne, hink, -⟩
    obtain ⟨c, more, rfl⟩ := List.exists_cons_of_ne_nil hne
    have hblank : isBlank c = true := hgap c (by simp)
    rw [hink c List.mem_cons_self] at hblank
    cases hblank
  | @run before gap word rest tokens hgap hword hink hrest _ ih =>
    have ih := ih (.inr hrest)
    constructor
    · intro ht
      obtain rfl | ht := List.mem_cons.mp ht
      · refine ⟨gap, word, rest, rfl, hword, hink, ?_, hrest, rfl⟩
        cases gap with
        | nil =>
          -- the run begins at once, so what was read before ends with white space
          rw [List.append_nil]
          refine hstart.resolve_right fun hhead => ?_
          obtain ⟨c, more, rfl⟩ := List.exists_cons_of_ne_nil hword
          have hblank := hhead c rfl
          rw [hink c List.mem_cons_self] at hblank
          cases hblank
        | cons d gap =>
          intro c hc
          rw [List.getLast?_append_of_ne_nil _ (List.cons_ne_nil d gap)] at hc
          exact hgap c (List.mem_of_getLast? hc)
      · obtain ⟨skipped, found, after, rfl, hne, hfound, hlast, hafter, rfl⟩ := ih.mp ht
        refine ⟨gap ++ word ++ skipped, found, after, ?_, hne, hfound, ?_, hafter, ?_⟩
        · simp only [List.append_assoc]
        · simpa only [List.append_assoc] using hlast
        · simp only [List.append_assoc]
    · rintro ⟨skipped, found, after, heq, hne, hfound, hlast, hafter, rfl⟩
      rw [List.append_assoc] at heq
      obtain ⟨more, rfl, hbehind⟩ := exists_of_gap_append_eq hgap hne hfound heq
      have hmore : ∀ c ∈ more.getLast?, isBlank c = true := by
        intro c hc
        refine hlast c ?_
        rw [← List.append_assoc, List.getLast?_append, hc]
        rfl
      obtain ⟨rfl, rfl, rfl⟩ | ⟨extra, rfl, rfl⟩ :=
        eq_or_exists_of_word_append_eq hink hrest hne hfound hmore hafter hbehind
      · rw [List.append_nil]
        exact List.mem_cons_self
      · refine List.mem_cons_of_mem _
          (ih.mpr ⟨extra, found, after, rfl, hne, hfound, ?_, hafter, ?_⟩)
        · simpa only [List.append_assoc] using hlast
        · simp only [List.append_assoc]

end Runs

end Text

namespace Source

theorem exists_tokensWithin (bound : Nat) (path : String) (before rest : List Char)
    (hb : rest.length < bound) :
    ∃ tokens s, tokensWithin bound (between path before rest) = .ok tokens s ∧
      Text.Runs path before rest tokens := by
  induction bound generalizing before rest with
  | zero => omega
  | succ bound ih =>
    have hread := nextToken_between path before rest
    have hsplit := Text.gap_append_word_append_afterWord rest
    by_cases hword : Text.word rest = []
    · rw [if_pos hword] at hread
      refine ⟨[], _, (bind_of_ok hread).trans rfl, .done ?_⟩
      exact (word_eq_nil_iff rest).mp hword
    · rw [if_neg hword] at hread
      have hlength := congrArg List.length hsplit
      have hpos : 0 < (Text.word rest).length := List.length_pos_iff.mpr hword
      simp only [List.length_append] at hlength
      obtain ⟨tokens, s, htokens, hruns⟩ :=
        ih (before ++ Text.gap rest ++ Text.word rest) (Text.afterWord rest) (by omega)
      refine ⟨_, s, (bind_of_ok hread).trans (bind_of_ok htokens), ?_⟩
      have hrun := Text.Runs.run (fun c => Text.isBlank_of_mem_gap) hword
        (fun c => Text.isBlank_of_mem_word) (fun c => Text.isBlank_of_head?_afterWord) hruns
      rwa [hsplit] at hrun

theorem exists_tokenize (path text : String) :
    ∃ tokens, tokenize path text = .ok tokens ∧ Text.Runs path [] text.toList tokens := by
  obtain ⟨tokens, s, htokens, hruns⟩ :=
    exists_tokensWithin ((ofText path text).unread.length + 1) path [] text.toList
      (by simp [ofText])
  refine ⟨tokens, ?_, hruns⟩
  have hall : Source.tokens (ofText path text) = .ok tokens s := htokens
  rw [tokenize, hall]

end Source

end Forth
