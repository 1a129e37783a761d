import Forth.Proofs.Behavior.BuiltFrom
import Forth.Proofs.Output
import Forth.Proofs.Primitive.Effect
import Forth.Proofs.Source.Cursor

/-! # How actions fail

The primitives ask for the depth of the stack before they take values from it,
so none but `:` fails for another reason than the input or the output, or than a
dictionary that cannot be listed.
-/

namespace Forth

open Session

variable {κ σ α β : Type}

/-- The action fails only where reading or writing fails. -/
def FailsByIo (m : SessionM κ σ α) : Prop :=
  ∀ s failure t, m s = .error failure t → ∃ reason, failure = { cause := .io reason }

namespace FailsByIo

theorem pure (a : α) : FailsByIo (pure a : SessionM κ σ α) := by
  intro s failure t h
  cases h

theorem modify (f : Session κ σ → Session κ σ) : FailsByIo (modify f : SessionM κ σ Unit) := by
  intro s failure t h
  cases h

theorem bind {m : SessionM κ σ α} {f : α → SessionM κ σ β} (hm : FailsByIo m)
    (hf : ∀ a, FailsByIo (f a)) : FailsByIo (m >>= f) := by
  intro s failure u h
  obtain hfailed | ⟨a, t, -, hrest⟩ := bind_error_cases h
  · exact hm s failure u hfailed
  · exact hf a t failure u hrest

theorem print (text : String) : FailsByIo (print text : SessionM κ σ Unit) := by
  intro s failure t h
  rw [Session.print, onOutput] at h
  cases ho : Output.print text s.output with
  | ok a o =>
    rw [ho] at h
    cases h
  | error failed o =>
    rw [ho] at h
    cases h
    exact ⟨_, Output.eq_closed_of_print ho⟩

theorem flush : FailsByIo (flush : SessionM κ σ Unit) := by
  intro s failure t h
  rw [Session.flush, onOutput, Output.flush] at h
  split at h
  · cases h
  · rename_i ho
    split at ho
    · cases ho
      cases h
      exact ⟨_, rfl⟩
    · cases ho

theorem nextToken : FailsByIo (nextToken : SessionM κ σ (Option Token)) := by
  intro s failure t h
  rw [Session.nextToken, onSource] at h
  cases hn : Source.nextToken s.source with
  | ok a u =>
    rw [hn] at h
    cases h
  | error failed u =>
    rw [hn] at h
    cases h
    obtain ⟨reason, -, hfail⟩ := (Source.met_of_nextToken hn).find?_isFault
    exact ⟨reason, hfail⟩

theorem restOfLine : FailsByIo (restOfLine : SessionM κ σ (Option String)) := by
  intro s failure t h
  rw [Session.restOfLine, onSource] at h
  cases hl : Source.restOfLine s.source with
  | ok a u =>
    rw [hl] at h
    cases h
  | error failed u =>
    rw [hl] at h
    cases h
    obtain ⟨reason, -, hfail⟩ := (Source.met_of_restOfLine hl).find?_isFault
    exact ⟨reason, hfail⟩

theorem replayStep {first rest : SessionM κ σ Unit} (hf : FailsByIo first) (hr : FailsByIo rest) :
    FailsByIo (Behavior.replayStep first rest) := by
  intro s failure t h
  cases hs : s.exiting with
  | true =>
    rw [Behavior.replayStep_of_exiting hs] at h
    cases h
  | false =>
    rw [Behavior.replayStep_of_not_exiting hs] at h
    exact hf.bind (fun _ => hr) s failure t h

theorem perform (e : Primitive.Effect) : FailsByIo (e.perform : SessionM κ σ Unit) := by
  have hwrite : FailsByIo (Primitive.Effect.write e.text : SessionM κ σ Unit) := by
    cases e.text with
    | none => exact pure ()
    | some text => exact print text
  exact (modify _).bind fun _ => hwrite.bind fun _ => modify _

theorem run {p : Primitive} (hp : p ≠ .colon ∧ p ≠ .dotDictionary) (define : SessionM κ σ Unit)
    (name : String) : FailsByIo (p.run define name) := by
  obtain ⟨hcolon, hd⟩ := hp
  by_cases hc : p = .comment
  · subst hc
    exact restOfLine.bind fun _ => pure ()
  · intro s
    rw [Primitive.run_eq_perform ⟨hd, hc, hcolon⟩]
    exact perform _ s

theorem invokeWith {define : SessionM κ σ Unit} {host : Host κ σ} {b : Behavior κ}
    (hb : b.BuiltFrom fun p => p ≠ .colon ∧ p ≠ .dotDictionary) (name : String) :
    FailsByIo (b.invokeWith define host name) :=
  hb.invokeWith_induction (fun _ name hp => run hp define name) (fun _ => modify _) (pure ())
    (fun _ _ => replayStep) name

end FailsByIo

/-- Something could not be read, written or listed, which is no matter of places. -/
inductive Failure.Unplaced : Failure → Prop
  | io (reason : String) : Unplaced { cause := .io reason }
  | tooWide : Unplaced Dictionary.tooWide

theorem Failure.Unplaced.cause_ne {failure : Failure} (h : failure.Unplaced) :
    failure.cause ≠ .truncatedDefinition := by
  cases h <;> nofun

/-- The action fails only where reading, writing or listing fails. -/
def FailsUnplaced (m : SessionM κ σ α) : Prop :=
  ∀ s failure t, m s = .error failure t → failure.Unplaced

theorem FailsByIo.unplaced {m : SessionM κ σ α} (hm : FailsByIo m) : FailsUnplaced m := by
  intro s failure t h
  obtain ⟨reason, rfl⟩ := hm s failure t h
  exact .io reason

theorem FailsUnplaced.run {p : Primitive} (hp : p ≠ .colon) (define : SessionM κ σ Unit)
    (name : String) : FailsUnplaced (p.run define name) := by
  by_cases hd : p = .dotDictionary
  · subst hd
    intro s failure t h
    have hrun : printOrFail s.dictionary.listing s = .error failure t := h
    cases hl : s.dictionary.listing with
    | ok text =>
      rw [hl] at hrun
      exact (FailsByIo.print text).unplaced s failure t hrun
    | error failed =>
      rw [hl] at hrun
      cases hrun
      obtain ⟨rfl, -⟩ := Dictionary.listing_eq_error_iff.mp hl
      exact .tooWide
  · exact (FailsByIo.run ⟨hp, hd⟩ define name).unplaced

end Forth
