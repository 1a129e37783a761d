import Forth.Proofs.Machine.Comment
import Forth.Proofs.Source.Insertion

/-! # A comment makes no difference

A session runs a text, and another one runs it with a comment more at the end of
a line. The two machines are alike until the first one is about to pass the
newline. If it reads a token there, and not a name, the second one reads the
comment first and comes back to the same place. From there the sources agree.
-/

namespace Forth

open Session

variable {σ : Type}

theorem Source.unreadChars_between (path : String) (before rest : List Char) :
    (between path before rest).unreadChars = rest.length := by
  rw [unreadChars, between, Item.chars_map_char]

/-- The first source has a comment less, and the second one is in front of it or behind it. -/
def insertion {c : List Char} (hc : '\n' ∉ c) (more : List Char) : Pairing where
  view := id
  idle a b := Source.Commented c more a b ∨ Source.Crossing more a b
  fresh := Source.Commented c more
  idle_of_fresh := .inl
  line h := by
    obtain ⟨x, y, d, e, ha, hb, h⟩ := h.restOfLine hc
    exact ⟨x, y, d, e, ha, hb, .inl h⟩

section Insertion

variable {c more : List Char} {hc : '\n' ∉ c} {a b : Source}

theorem insertion_reads_crossing (h : Source.Crossing more a b) : (insertion hc more).Reads a b := by
  have heq := h.nextToken_eq
  cases h with
  | mk path passed hrest =>
    obtain ⟨before, hn⟩ | ⟨t, before, after, hn⟩ := Source.nextToken_cases path _ more
    · exact .none (heq.trans hn) hn (.inl (.after ..))
    · exact .token (heq.trans hn) hn ⟨rfl, rfl⟩ (.after ..)

theorem insertion_reads (h : (insertion hc more).idle a b) :
    (insertion hc more).Reads a b ∨
      ∃ path passed rest, (∀ x ∈ rest, isBlank x = true) ∧
        a = .between path passed (rest ++ '\n' :: more) ∧
        b = .between path passed (rest ++ (Text.commented c ++ '\n' :: more)) := by
  rcases h with h | h
  · obtain ⟨path, passed, ha, hb⟩ | ⟨t, d, e, ha, hb, hde⟩ | hnext := h.nextToken_cases
    · exact .inl (.none ha hb (.inl (.after ..)))
    · exact .inl (.token ha hb ⟨rfl, rfl⟩ hde)
    · exact .inr hnext
  · exact .inl (insertion_reads_crossing h)

open Machine

/-- The second machine does what the first one does, and reads the comment on the way where the
first one passes the newline. -/
theorem alike_step_of_insertion {m k : Machine σ} (h : m.Alike (insertion hc more) k)
    (hm : m.Proper)
    (hpass : m.Passes more.length →
      m.session.dictionary.bindsComment = true ∧ m.awaitsName = false) :
    ∃ l, Reaches k l ∧ (step m).Alike (insertion hc more) l := by
  by_cases hreading : m.Reading
  · obtain hreads | ⟨path, passed, rest, hrest, ha, hb⟩ := insertion_reads (h.idle hreading)
    · exact ⟨step k, .of_step_eq rfl, h.step hm fun _ => hreads⟩
    · obtain ⟨t, d, line, ht, hn, hl⟩ :=
        Source.nextToken_commented path passed hc hrest more
      have hcrossing : Source.Crossing more m.session.source
          (.between path (passed ++ rest ++ ['\n']) more) :=
        ha ▸ .mk path passed hrest
      have hdictionary : m.session.dictionary = k.session.dictionary :=
        Dictionary.eq_of_alike_id h.session.dictionary
      have hpasses : m.Passes more.length := by
        have hle := Source.unreadChars_le
          (Source.suffix_nextToken (.between path (passed ++ rest ++ ['\n']) more))
        rw [Source.unreadChars_between] at hle
        constructor
        · rw [ha, Source.unreadChars_between, List.length_append, List.length_cons]
          omega
        · rwa [hreading.source_step h.session.output.left, hcrossing.nextToken_eq]
      obtain ⟨hcomment, hname⟩ := hpass hpasses
      obtain ⟨l, hreaches, hl, hsource⟩ := h.reaches_comment hreading hname
        (hdictionary ▸ hm.dictionary) (hdictionary ▸ hcomment) ht (hb ▸ hn) hl (.inr hcrossing)
      refine ⟨step l, hreaches.trans (.of_step_eq rfl), hl.step hm fun _ => ?_⟩
      rw [hsource]
      exact insertion_reads_crossing hcrossing
  · exact ⟨step k, .of_step_eq rfl, h.step hm fun hreads => absurd hreads hreading⟩

theorem alike_iterate_of_insertion {m k : Machine σ} (h : m.Alike (insertion hc more) k)
    (hm : m.Proper)
    (hpass : ∀ i, (step^[i] m).Passes more.length →
      (step^[i] m).session.dictionary.bindsComment = true ∧ (step^[i] m).awaitsName = false)
    (n : Nat) : ∃ l, Reaches k l ∧ (step^[n] m).Alike (insertion hc more) l := by
  induction n with
  | zero => exact ⟨k, .refl k, h⟩
  | succ n ih =>
    obtain ⟨l, hreaches, hl⟩ := ih
    obtain ⟨q, hq, hstep⟩ := alike_step_of_insertion hl (hm.iterate n) (hpass n)
    rw [Function.iterate_succ_apply']
    exact ⟨q, hreaches.trans hq, hstep⟩

end Insertion

/-- Both come to the same kind of answer, leave the same stack, and have written the same. -/
structure SameOutcome (x y : EStateM.Result Failure (Session Empty σ) Ending) : Prop where
  kind : kind x.answer = kind y.answer
  stack : x.state.stack = y.state.stack
  written : x.state.output.written = y.state.output.written

theorem SameEnd.runSource {view : Location → Location} {s t : Session Empty σ} {a b : Source}
    (h : SameEnd view (run .none (s.entering a)) (run .none (t.entering b))) :
    SameOutcome (runSource .none a s) (runSource .none b t) ∧
      (runSource .none a s).state.dictionary.Alike view (runSource .none b t).state.dictionary := by
  simp only [runSource_eq, EStateM.Result.state_mapState]
  refine ⟨⟨?_, ?_, ?_⟩, h.state.dictionary⟩
  · simpa using h.kind
  · simpa using h.state.stack
  · simpa using h.state.output.written

/-- Where the run of the text passes the newline between its two parts, `\` begins a comment, and no
`:` waits for its name. -/
def Session.TakesComment (s : Session Empty σ) (path before after : String) : Prop :=
  ∀ i, let m := Machine.step^[i] (.turn (s.entering (.ofText path (before ++ "\n" ++ after))))
    m.Passes after.length → m.session.dictionary.bindsComment = true ∧ m.awaitsName = false

theorem Session.takesComment_of_ended {s : Session Empty σ} {path before after : String} (n : Nat)
    (hend : (Machine.step^[n]
      (.turn (s.entering (.ofText path (before ++ "\n" ++ after))))).hasEnded = true)
    (h : ∀ i < n,
      let m := Machine.step^[i] (.turn (s.entering (.ofText path (before ++ "\n" ++ after))))
      m.Passes after.length → m.session.dictionary.bindsComment = true ∧ m.awaitsName = false) :
    s.TakesComment path before after := by
  intro i m hpasses
  by_cases hi : i < n
  · exact h i hi hpasses
  · obtain ⟨j, rfl⟩ : ∃ j, i = j + n := ⟨i - n, by omega⟩
    obtain ⟨r, hr⟩ := Machine.exists_of_hasEnded hend
    have hm : m = .ended r := by
      change Machine.step^[j + n] _ = _
      rw [Function.iterate_add_apply, hr, Machine.iterate_ended]
    rw [hm] at hpasses
    exact absurd (hpasses.1.trans_le hpasses.2) (Nat.lt_irrefl _)

/-- A comment at the end of a line makes no difference. -/
theorem processText_comment {s : Session Empty σ} (hs : Attainable s) (ho : s.output.Steady)
    {path before after c : String} (hc : '\n' ∉ c.toList) (hpass : s.TakesComment path before after) :
    let x := processText .none path (before ++ "\n" ++ after) s
    let y := processText .none path (before ++ " \\ " ++ c ++ "\n" ++ after) s
    SameOutcome x y ∧ x.state.dictionary = y.state.dictionary := by
  have hfirst : (before ++ "\n" ++ after).toList = before.toList ++ '\n' :: after.toList := by
    simp
  have hsecond : (before ++ " \\ " ++ c ++ "\n" ++ after).toList =
      before.toList ++ (Text.commented c.toList ++ '\n' :: after.toList) := by
    simp [Text.commented]
  let m : Machine σ := .turn (s.entering (.ofText path (before ++ "\n" ++ after)))
  let k : Machine σ := .turn (s.entering (.ofText path (before ++ " \\ " ++ c ++ "\n" ++ after)))
  have halike : m.Alike (insertion hc after.toList) k := by
    refine .turn ⟨rfl, .refl _ _, ⟨rfl, rfl, ho, ho⟩, rfl⟩ (.inl ?_)
    change Source.Commented _ _ (.ofText _ _) (.ofText _ _)
    rw [Source.ofText_eq_between, Source.ofText_eq_between, hfirst, hsecond]
    exact .before path [] before.toList
  have hd : s.dictionary.OnlyComments := hs.proper.onlyComments
  obtain ⟨n, hn⟩ := Machine.reaches_run (s := s.entering (.ofText path _)) hd
  have hlength : after.toList.length = after.length := String.length_toList
  obtain ⟨l, ⟨i, hi⟩, hl⟩ := alike_iterate_of_insertion halike (.turn hs.proper)
    (fun i hi => hpass i (hlength ▸ hi)) n
  obtain ⟨j, hj⟩ := Machine.reaches_run (s := s.entering (.ofText path _)) hd
  rw [hn] at hl
  cases hl with
  | ended hend =>
    obtain rfl := Machine.ended_unique hi hj
    obtain ⟨houtcome, hdictionary⟩ := hend.runSource
    exact ⟨houtcome, Dictionary.eq_of_alike_id hdictionary⟩

/-- Here the line ends in a body that is thrown away, and the comment says more than the body. -/
theorem processText_comment_abandoned :
    let s : Session Empty Unit :=
      { dictionary := Dictionary.empty.definePrimitives, source := .ofText "" "", hostState := () }
    let x := processText .none "" (": f who" ++ "\n" ++ "dup ; 2") s
    let y := processText .none "" (": f who" ++ " \\ " ++ "; bye : what" ++ "\n" ++ "dup ; 2") s
    Attainable s ∧ s.output.Steady ∧ '\n' ∉ "; bye : what".toList ∧
      s.TakesComment "" ": f who" "dup ; 2" ∧ SameOutcome x y ∧
      x.state.dictionary = y.state.dictionary := by
  intro s x y
  have hs : Attainable s := ⟨_, (), .refl⟩
  have ho : s.output.Steady := nofun
  have hc : '\n' ∉ "; bye : what".toList := by decide
  have hpass : s.TakesComment "" ": f who" "dup ; 2" :=
    Session.takesComment_of_ended 11 (by decide +kernel) (by decide +kernel)
  exact ⟨hs, ho, hc, hpass, processText_comment hs ho hc hpass⟩

/-- A comment is a turn of its own, and the output is flushed once more. A flush that fails can come
earlier. -/
theorem not_sameOutcome_of_flush :
    let s : Session Empty Unit :=
      { dictionary := Dictionary.empty.definePrimitives, source := .ofText "" "",
        output := { failingFlush := some 3 }, hostState := () }
    let x := processText .none "<test>" ("1" ++ "\n" ++ "2") s
    let y := processText .none "<test>" ("1" ++ " \\ " ++ "c" ++ "\n" ++ "2") s
    Attainable s ∧ '\n' ∉ "c".toList ∧ s.TakesComment "<test>" "1" "2" ∧
      x.state.stack.length = 2 ∧ y.state.stack.length = 1 ∧ ¬SameOutcome x y := by
  intro s x y
  have hs : Attainable s :=
    ⟨s.source, (), Follows.refl.replaced [] s.source { failingFlush := some 3 } none false⟩
  have hx : x.state.stack.length = 2 := by decide +kernel
  have hy : y.state.stack.length = 1 := by decide +kernel
  refine ⟨hs, by decide, ?_, hx, hy, fun h => ?_⟩
  · exact Session.takesComment_of_ended 7 (by decide +kernel) (by decide +kernel)
  · have hlength := congrArg List.length h.stack
    rw [hx, hy] at hlength
    cases hlength

end Forth
