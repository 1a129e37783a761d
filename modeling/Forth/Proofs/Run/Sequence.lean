import Forth.Proofs.Machine.Ending
import Forth.Proofs.Run.Comment
import Forth.Proofs.Source.Sequel

/-! # Texts one after the other

A session runs a text to its end and then another one, and a second session runs
both as one text on two lines. The machine of the first text and that of both
are alike until the first one finds no token. If it is between two tokens then,
nothing is pending, and from there the machines of the second text and of both
are alike, up to the places that they note.
-/

namespace Forth

open Session

variable {σ : Type}

/-- The view that sees no difference between places. -/
def anywhere : Location → Location := fun _ => {}

/-- The first source is that of the first text, the second one that of both. -/
def leading (more : List Char) : Pairing where
  view := anywhere
  idle := Source.Leading more
  fresh := Source.Within more
  idle_of_fresh := .within
  line := Source.Within.restOfLine

/-- Both sources go on with the same text. -/
def rejoined : Pairing where
  view := anywhere
  idle := Source.Rejoined
  fresh := Source.Level
  idle_of_fresh := Source.Level.rejoined
  line h := by
    obtain ⟨x, y, c, d, ha, hb, h⟩ := h.restOfLine
    exact ⟨x, y, c, d, ha, hb, h.rejoined⟩

theorem leading_reads {more : List Char} {a b : Source} (h : (leading more).idle a b) :
    (leading more).Reads a b ∨ ∃ c, Source.nextToken a = .ok none c := by
  obtain ⟨t, c, d, ha, hb, hcd⟩ | hnone := Source.Leading.nextToken_cases h
  · exact .inl (.token ha hb ⟨rfl, rfl⟩ hcd)
  · exact .inr hnone

theorem rejoined_reads {a b : Source} (h : rejoined.idle a b) : rejoined.Reads a b := by
  obtain ⟨c, d, ha, hb, hcd⟩ | ⟨t, u, c, d, ha, hb, htext, hcd⟩ := Source.Rejoined.nextToken_cases h
  · exact .none ha hb hcd.rejoined
  · exact .token ha hb ⟨htext, rfl⟩ hcd

section Phases

open Machine

variable {m k : Machine σ} {u : Session Empty σ}

/-- Where the first text ends, nothing is pending, and what both have done so far is the same. -/
structure AtEnd (more : List Char) (s t u : Session Empty σ) : Prop where
  alike : s.Alike anywhere t
  running : s.exiting = false
  source : Source.Leading more s.source t.source
  read : ∃ c, Source.nextToken s.source = .ok none c ∧
    u = { s with source := c, output := s.output.flushed }

/-- The machine of the first text comes to its end. That of both comes as far. -/
theorem exists_atEnd {more : List Char} {n : Nat} (h : m.Alike (leading more) k) (hm : m.Proper)
    (hne : m ≠ ended (.ok .endOfInput u)) (hend : Machine.step^[n] m = ended (.ok .endOfInput u)) :
    ∃ s t, Reaches k (turn t) ∧ AtEnd more s t u := by
  induction n generalizing m k with
  | zero => exact absurd hend hne
  | succ n ih =>
    rw [Function.iterate_succ_apply] at hend
    have hnext (hreads : m.Reading → (leading more).Reads m.session.source k.session.source)
        (hne : step m ≠ ended (.ok .endOfInput u)) :
        ∃ s t, Reaches k (turn t) ∧ AtEnd more s t u := by
      obtain ⟨s, t, hreaches, hatEnd⟩ := ih (h.step hm hreads) hm.step hne hend
      exact ⟨s, t, hreaches.step, hatEnd⟩
    by_cases hstep : step m = ended (.ok .endOfInput u)
    · obtain hm | ⟨s, rfl⟩ := exists_turn_of_step hstep
      · exact absurd hm hne
      · cases h with
        | turn hs hidle =>
          obtain ⟨c, hexit, hn, rfl⟩ := exists_of_takeTurn hs.output.left hstep
          exact ⟨s, _, .refl _, hs, hexit, hidle, c, hn, rfl⟩
    · by_cases hreading : m.Reading
      · obtain hreads | ⟨c, hn⟩ := leading_reads (h.idle hreading)
        · exact hnext (fun _ => hreads) hstep
        · obtain ⟨v, hv⟩ | ⟨failure, v, hfails⟩ :=
            cases_of_end hreading hm h.session.output.left hn
          · rw [hv, iterate_ended] at hend
            exact absurd (hv.trans hend) hstep
          · cases hfails.ended_unique ⟨n + 1, hend⟩
      · exact hnext (fun h => absurd h hreading) hstep

end Phases

theorem exists_of_runSource {source : Source} {s : Session Empty σ} {e : Ending}
    (h : (runSource .none source s).answer = .ok e) :
    ∃ u, run .none (s.entering source) = .ok e u ∧
      (runSource .none source s).state = { u with source := s.source, exiting := false } := by
  rw [runSource_eq] at h ⊢
  cases hr : run .none (s.entering source) with
  | error failure u =>
    rw [hr] at h
    cases h
  | ok ending u =>
    rw [hr] at h
    cases h
    exact ⟨u, rfl, rfl⟩

theorem alike_leading {s : Session Empty σ} (ho : s.output.Steady) (path first second : String) :
    (Machine.turn (s.entering (.ofText path first))).Alike (leading second.toList)
      (.turn (s.entering (.ofText path (first ++ "\n" ++ second)))) := by
  have hlines : (first ++ "\n" ++ second).toList = first.toList ++ '\n' :: second.toList := by
    simp
  refine .turn ⟨rfl, .refl _ _, ⟨rfl, rfl, ho, ho⟩, rfl⟩ (.within ?_)
  change Source.Within _ (.ofText _ _) (.ofText _ _)
  rw [Source.ofText_eq_between, Source.ofText_eq_between, hlines]
  exact .mk path [] first.toList

/-- The second text begins in the session that the first one leaves. -/
theorem AtEnd.alike_rejoined {s t u : Session Empty σ} {second : String}
    (h : AtEnd second.toList s t u) (path : String) :
    (Machine.turn { u with source := .ofText path second, exiting := false }).Alike rejoined
      (.turn t) := by
  obtain ⟨hs, hexit, hsource, c, hn, rfl⟩ := h
  have houtput : s.output.flushed.Alike t.output :=
    ⟨hs.output.written, hs.output.room, hs.output.left.flushed, hs.output.right⟩
  refine .turn ⟨hs.stack, hs.dictionary, houtput, hexit ▸ hs.exiting⟩ ?_
  change Source.Rejoined (.ofText path second) _
  rw [Source.ofText_eq_between]
  exact hsource.rejoined hn path

/-- A text and another one after it do what both do as one text on two lines. -/
theorem processText_sequence {s : Session Empty σ} (hs : Attainable s) (ho : s.output.Steady)
    {path first second : String}
    (hend : (processText .none path first s).answer = .ok .endOfInput) :
    let x := processText .none path second (processText .none path first s).state
    let y := processText .none path (first ++ "\n" ++ second) s
    SameOutcome x y ∧ x.state.dictionary.Alike anywhere y.state.dictionary := by
  intro x y
  let m : Machine σ := .turn (s.entering (.ofText path first))
  have hd : s.dictionary.OnlyComments := hs.proper.onlyComments
  obtain ⟨u, hu, hstate⟩ := exists_of_runSource hend
  obtain ⟨n, hn⟩ := Machine.reaches_run (s := s.entering (.ofText path first)) hd
  rw [hu] at hn
  have hrunning : m ≠ .ended (.ok .endOfInput u) := nofun
  obtain ⟨a, b, hb, hatEnd⟩ :=
    exists_atEnd (alike_leading ho path first second) (.turn hs.proper) hrunning hn
  let v := (processText .none path first s).state
  have hv : v.dictionary.Proper := (hs.follows (Follows.refl.processText path first)).proper
  have halike : (Machine.turn (v.entering (.ofText path second))).Alike rejoined (.turn b) := by
    rw [show v = { u with source := s.source, exiting := false } from hstate]
    exact hatEnd.alike_rejoined path
  obtain ⟨q, hq, hsame⟩ := halike.reaches_ended (fun _ _ => rejoined_reads) (.turn hv)
    (Machine.reaches_run (s := v.entering (.ofText path second)) hv.onlyComments)
  have hboth := Machine.reaches_run (s := s.entering (.ofText path (first ++ "\n" ++ second))) hd
  obtain rfl := (hb.trans hq).ended_unique hboth
  exact hsame.runSource

/-- A replayed `:` takes its name from behind the call, and a comment is open where the first text
ends. -/
theorem processText_sequence_replayed :
    let s : Session Empty Unit :=
      { dictionary := Dictionary.empty.definePrimitives, source := .ofText "" "", hostState := () }
    let first := ": make : ; make one 1 . ; one \\ one"
    let second := "make two one one ; two bye one"
    let x := processText .none "" second (processText .none "" first s).state
    let y := processText .none "" (first ++ "\n" ++ second) s
    Attainable s ∧ s.output.Steady ∧
      (processText .none "" first s).answer = .ok .endOfInput ∧ SameOutcome x y ∧
      x.state.dictionary.Alike anywhere y.state.dictionary := by
  intro s first second x y
  have hs : Attainable s := ⟨_, (), .refl⟩
  have ho : s.output.Steady := nofun
  have hend : (processText .none "" first s).answer = .ok .endOfInput := by decide +kernel
  exact ⟨hs, ho, hend, processText_sequence hs ho hend⟩

end Forth
