import Forth.Proofs.Definition.Extent
import Forth.Proofs.Output

/-! # Sessions in which nothing but the program can go wrong

Where reading and writing do not fail, every primitive succeeds but `:` and the
listing of the dictionary, and every step of a run leaves such a session again.
-/

namespace Forth

open Session

variable {κ σ α β : Type}

/-- Reading and writing do not fail, and the comment is the only immediate word. -/
structure Session.Reliable (s : Session κ σ) : Prop where
  standard : s.dictionary.Standard
  source : s.source.Faultless
  output : s.output.Reliable

theorem Session.Reliable.append {s : Session κ σ} (hs : s.Reliable) (text : String) :
    { s with output := s.output.append text }.Reliable :=
  ⟨hs.standard, hs.source, hs.output.append text⟩

theorem Session.Reliable.drafted {s : Session κ σ} (hs : s.Reliable) : s.drafted.Reliable :=
  ⟨hs.standard, hs.source.of_moved (Source.extent_draft _ hs.source).1, hs.output⟩

def Succeeds (m : SessionM κ σ α) : Prop :=
  ∀ s, s.Reliable → ∃ a t, m s = .ok a t ∧ t.Reliable

namespace Succeeds

theorem pure (a : α) : Succeeds (pure a : SessionM κ σ α) :=
  fun s hs => ⟨a, s, rfl, hs⟩

theorem bind {m : SessionM κ σ α} {f : α → SessionM κ σ β} (hm : Succeeds m)
    (hf : ∀ a, Succeeds (f a)) : Succeeds (m >>= f) := by
  intro s hs
  obtain ⟨a, t, hok, ht⟩ := hm s hs
  rw [bind_of_ok hok]
  exact hf a t ht

theorem modify {f : Session κ σ → Session κ σ} (hf : ∀ s, s.Reliable → (f s).Reliable) :
    Succeeds (modify f : SessionM κ σ Unit) :=
  fun s hs => ⟨(), f s, rfl, hf s hs⟩

theorem print (text : String) : Succeeds (print text : SessionM κ σ Unit) :=
  fun _ hs => ⟨(), _, print_of_reliable hs.output text, hs.append text⟩

theorem flush : Succeeds (flush : SessionM κ σ Unit) :=
  fun _ hs => ⟨(), _, flush_of_reliable hs.output, hs.standard, hs.source, hs.output.flushed⟩

theorem nextToken : Succeeds (nextToken : SessionM κ σ (Option Token)) := by
  intro s hs
  cases h : Source.nextToken s.source with
  | ok token t =>
    have ht : t.Faultless := hs.source.of_moved (Source.moved_of_nextToken h)
    exact ⟨token, _, onSource_of_ok h, hs.standard, ht, hs.output⟩
  | error failure t => exact absurd (Source.met_of_nextToken h) hs.source.not_met

theorem restOfLine : Succeeds (restOfLine : SessionM κ σ (Option String)) := by
  intro s hs
  cases h : Source.restOfLine s.source with
  | ok line t =>
    have ht : t.Faultless := hs.source.of_moved (Source.moved_of_restOfLine h)
    exact ⟨line, _, onSource_of_ok h, hs.standard, ht, hs.output⟩
  | error failure t => exact absurd (Source.met_of_restOfLine h) hs.source.not_met

theorem perform (e : Primitive.Effect) : Succeeds (e.perform : SessionM κ σ Unit) := by
  have hwrite : Succeeds (Primitive.Effect.write e.text : SessionM κ σ Unit) := by
    cases e.text with
    | none => exact pure ()
    | some text => exact print text
  refine bind (modify ?_) fun _ => hwrite.bind fun _ => modify ?_
  · intro s hs
    exact ⟨hs.standard, hs.source, hs.output⟩
  · intro s hs
    exact ⟨hs.standard, hs.source, hs.output⟩

theorem run {p : Primitive} (hp : p ≠ .colon ∧ p ≠ .dotDictionary) (define : SessionM κ σ Unit)
    (name : String) : Succeeds (p.run define name) := by
  obtain ⟨hcolon, hd⟩ := hp
  by_cases hc : p = .comment
  · subst hc
    exact restOfLine.bind fun _ => pure ()
  · intro s
    rw [Primitive.run_eq_perform ⟨hd, hc, hcolon⟩]
    exact perform _ s

theorem keeps {m : SessionM κ σ α} (hm : Succeeds m) : Keeps Session.Reliable m := by
  intro s hs
  obtain ⟨a, t, hok, ht⟩ := hm s hs
  rw [hok]
  exact ht

end Succeeds

theorem Session.Reliable.printOrFail {s : Session κ σ} (hs : s.Reliable)
    (text : Except Failure String) : (printOrFail text s).state.Reliable := by
  cases text with
  | ok text => exact (Succeeds.print text).keeps s hs
  | error failure => exact hs

theorem Session.Reliable.define {s : Session κ σ} (hs : s.Reliable) (host : Host κ σ) :
    (define host s).state.Reliable where
  standard := standard_define host hs.standard
  source := source_define host hs.standard ▸ hs.drafted.source
  output := output_define host hs.standard ▸ hs.output

theorem Session.Reliable.invariant : Invariant (Session.Reliable : Session Empty σ → Prop) where
  place _ _ hs := ⟨hs.standard, hs.source, hs.output⟩
  push _ _ hs := ⟨hs.standard, hs.source, hs.output⟩
  primitive p name := by
    by_cases hp : p = .colon
    · subst hp
      exact fun s hs => hs.define .none
    · by_cases hd : p = .dotDictionary
      · subst hd
        exact fun s hs => hs.printOrFail s.dictionary.listing
      · exact (Succeeds.run ⟨hp, hd⟩ _ name).keeps
  nextToken := Succeeds.nextToken.keeps
  print text := (Succeeds.print text).keeps
  flush := Succeeds.flush.keeps

end Forth
