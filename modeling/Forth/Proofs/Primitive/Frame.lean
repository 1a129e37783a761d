import Forth.Proofs.Primitive.Effect

/-! # What primitives leave alone -/

namespace Forth

open Session

variable {κ σ : Type}

theorem Primitive.Effect.state_perform (e : Effect) (s : Session κ σ) :
    ∃ stack output exiting, (e.perform s).state = { s with stack, output, exiting } := by
  obtain ⟨held, text, left, exits⟩ := e
  cases text with
  | none => exact ⟨_, _, _, rfl⟩
  | some text =>
    rw [perform, modify_bind_apply, bind_apply, write, print, onOutput]
    cases Output.print text s.output <;> exact ⟨_, _, _, rfl⟩

/-- No primitive but `:` touches the dictionary, and of the others only the comment reads. -/
theorem Primitive.state_run {p : Primitive} (hp : p ≠ .colon) (define : SessionM κ σ Unit)
    (name : String) (s : Session κ σ) :
    ∃ stack source output exiting,
      (source = s.source ∨ source = (Source.restOfLine s.source).state) ∧
      (p.run define name s).state = { s with stack, source, output, exiting } := by
  by_cases hc : p = .comment
  · subst hc
    refine ⟨s.stack, _, s.output, s.exiting, .inr rfl, ?_⟩
    rw [← state_onSource]
    change ((do let _ ← restOfLine : SessionM κ σ Unit) s).state = _
    rw [bind_apply, restOfLine]
    cases onSource Source.restOfLine s <;> rfl
  · by_cases hd : p = .dotDictionary
    · subst hd
      exact ⟨s.stack, s.source, _, s.exiting, .inl rfl, state_onOutput _ s⟩
    · rw [run_eq_perform ⟨hd, hc, hp⟩]
      obtain ⟨stack, output, exiting, h⟩ := (p.effect name s.stack).state_perform s
      exact ⟨stack, s.source, output, exiting, .inl rfl, h⟩

theorem Primitive.exits_effect {p : Primitive} (hp : p ≠ .bye) (name : String) (stack : Stack) :
    (p.effect name stack).exits = false := by
  rw [effect]
  split
  · rfl
  · fun_cases effectOn name p stack <;> first | rfl | exact absurd rfl hp

theorem Primitive.Effect.exiting_perform {e : Effect} (he : e.exits = false) (s : Session κ σ) :
    (e.perform s).state.exiting = s.exiting := by
  obtain ⟨held, text, left, exits⟩ := e
  obtain rfl : exits = false := he
  cases text with
  | none => rfl
  | some text =>
    rw [perform, modify_bind_apply, bind_apply, write, print, onOutput]
    cases Output.print text s.output <;> rfl

/-- No primitive but `bye`, and `:` by what it runs, asks for the end of the session. -/
theorem Primitive.exiting_run {p : Primitive} (hp : p ≠ .colon) (hbye : p ≠ .bye)
    (define : SessionM κ σ Unit) (name : String) (s : Session κ σ) :
    (p.run define name s).state.exiting = s.exiting := by
  by_cases hc : p = .comment
  · subst hc
    change ((do let _ ← restOfLine : SessionM κ σ Unit) s).state.exiting = _
    rw [bind_apply, restOfLine, onSource]
    cases Source.restOfLine s.source <;> rfl
  · by_cases hd : p = .dotDictionary
    · subst hd
      change (onOutput (Output.printOrFail s.dictionary.listing) s).state.exiting = _
      rw [state_onOutput]
    · rw [run_eq_perform ⟨hd, hc, hp⟩]
      exact Effect.exiting_perform (exits_effect hbye name s.stack) s

end Forth
