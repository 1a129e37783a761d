import Forth.Proofs.Definition.Reading
import Forth.Proofs.Session.Compilation

/-! # Compiling a list of tokens

The tokens are taken from the left, each in the session that the ones before it
left. So what a token refers to can be the work of an immediate word in front of
it. The first token that refers to nothing, or whose word fails, is the last one
that is looked at.
-/

namespace Forth

open Session

variable {κ σ : Type}

/-- The tokens are compiled from the left. This turns the first session into the second, and leaves
the steps. -/
inductive Compiles (host : Host κ σ) :
    List Token → Session κ σ → List (Step κ) → Session κ σ → Prop
  | done (s : Session κ σ) : Compiles host [] s [] s
  | step {t : Token} {rest : List Token} {s u : Session κ σ} {w : Word (Behavior κ)}
      {steps : List (Step κ)} : s.dictionary.resolve t = some w → w.immediate = false →
      Compiles host rest s steps u → Compiles host (t :: rest) s ((w.behavior, t.text) :: steps) u
  | immediate {t : Token} {rest : List Token} {s u v : Session κ σ} {w : Word (Behavior κ)}
      {steps : List (Step κ)} : s.dictionary.resolve t = some w → w.immediate = true →
      invoke host w.behavior w.name { s with current := some t.location } = .ok () v →
      Compiles host rest v steps u → Compiles host (t :: rest) s steps u

/-- The token ends a compilation with a failure. -/
inductive Token.Stops (host : Host κ σ) (t : Token) (s : Session κ σ) :
    Failure → Session κ σ → Prop
  | unknown : s.dictionary.resolve t = none →
      Stops host t s { cause := .unknownWord t.text, location := some t.location } s
  | immediate {w : Word (Behavior κ)} {failure : Failure} {u : Session κ σ} :
      s.dictionary.resolve t = some w → w.immediate = true →
      invoke host w.behavior w.name { s with current := some t.location } = .error failure u →
      Stops host t s failure u

section Tokens

variable {host : Host κ σ} {t : Token} {body later : List Token} {s u v : Session κ σ}
  {w : Word (Behavior κ)} {steps : List (Step κ)} {failure : Failure}

theorem compileToken_of_unknown (execute : Execute κ σ) (hw : s.dictionary.resolve t = none) :
    compileToken execute t s = .error t.unknown s := by
  rw [compileToken, get_bind_apply, hw]
  rfl

theorem compileTokens_of_step (hw : s.dictionary.resolve t = some w) (hn : w.immediate = false) :
    compileTokens host (t :: body) s =
      (do
        let steps ← compileTokens host body
        return (w.behavior, t.text) :: steps : SessionM κ σ (List (Step κ))) s := by
  rw [compileTokens, bind_of_ok (compileToken_of_normal _ hw hn),
    Dictionary.name_eq_of_resolve hw]
  rfl

theorem compileTokens_of_immediate (hw : s.dictionary.resolve t = some w)
    (hi : w.immediate = true)
    (h : invoke host w.behavior w.name { s with current := some t.location } = .ok () v) :
    compileTokens host (t :: body) s = compileTokens host body v := by
  have htoken : compileToken (execute host) t s = .ok none v := by
    rw [compileToken_of_immediate hw hi]
    exact bind_of_ok h
  rw [compileTokens, bind_of_ok htoken, bind_apply]
  cases compileTokens host body v <;> rfl

theorem compileTokens_of_stops (h : t.Stops host s failure u) :
    compileTokens host (t :: later) s = .error failure u := by
  rw [compileTokens]
  apply bind_of_error
  cases h with
  | unknown hw => exact compileToken_of_unknown _ hw
  | immediate hw hi hfailed =>
    rw [compileToken_of_immediate hw hi]
    exact bind_of_error hfailed

theorem Compiles.compileTokens_append (h : Compiles host body s steps v) (later : List Token) :
    compileTokens host (body ++ later) s =
      (do
        let more ← compileTokens host later
        return steps ++ more : SessionM κ σ (List (Step κ))) v := by
  induction h with
  | done s =>
    rw [List.nil_append, bind_apply]
    cases compileTokens host later s <;> rfl
  | step hw hn _ ih =>
    rw [List.cons_append, compileTokens_of_step hw hn, bind_apply, ih, bind_apply, bind_apply]
    cases compileTokens host later _ <;> rfl
  | immediate hw hi hok _ ih =>
    rw [List.cons_append, compileTokens_of_immediate hw hi hok, ih]

theorem Compiles.compileTokens_eq (h : Compiles host body s steps u) :
    compileTokens host body s = .ok steps u := by
  have happend := h.compileTokens_append []
  rw [List.append_nil] at happend
  rw [happend]
  change EStateM.Result.ok (steps ++ []) u = _
  rw [List.append_nil]

/-- What stands behind the token that stops is never looked at. -/
theorem Compiles.compileTokens_of_stops (h : Compiles host body s steps v)
    (ht : t.Stops host v failure u) (later : List Token) :
    compileTokens host (body ++ t :: later) s = .error failure u := by
  rw [h.compileTokens_append]
  exact bind_of_error (Forth.compileTokens_of_stops ht)

/-- All tokens are compiled, or there is a first one that stops. -/
theorem compiles_or_stops (host : Host κ σ) (body : List Token) (s : Session κ σ) :
    (∃ steps u, Compiles host body s steps u) ∨
      ∃ before t later steps v failure u, body = before ++ t :: later ∧
        Compiles host before s steps v ∧ t.Stops host v failure u := by
  induction body generalizing s with
  | nil => exact .inl ⟨[], s, .done s⟩
  | cons t body ih =>
    cases hw : s.dictionary.resolve t with
    | none => exact .inr ⟨[], t, body, [], s, _, s, rfl, .done s, .unknown hw⟩
    | some w =>
      cases hi : w.immediate with
      | false =>
        obtain ⟨steps, u, h⟩ | ⟨before, x, later, steps, v, failure, u, rfl, h, hx⟩ := ih s
        · exact .inl ⟨_, u, .step hw hi h⟩
        · exact .inr ⟨t :: before, x, later, _, v, failure, u, rfl, .step hw hi h, hx⟩
      | true =>
        cases hok : invoke host w.behavior w.name { s with current := some t.location } with
        | error failure u =>
          exact .inr ⟨[], t, body, [], s, failure, u, rfl, .done s, .immediate hw hi hok⟩
        | ok _ v =>
          obtain ⟨steps, u, h⟩ | ⟨before, x, later, steps, y, failure, u, rfl, h, hx⟩ := ih v
          · exact .inl ⟨steps, u, .immediate hw hi hok h⟩
          · exact .inr
              ⟨t :: before, x, later, steps, y, failure, u, rfl, .immediate hw hi hok h, hx⟩

end Tokens

/-- How the tokens of a body are compiled in a session, and what a definition makes of it. -/
structure CompilesInOrder (host : Host κ σ) (body : List Token) (s : Session κ σ) : Prop where
  succeeds_iff : ∀ steps u, compileTokens host body s = .ok steps u ↔ Compiles host body s steps u
  fails_iff : ∀ failure u, compileTokens host body s = .error failure u ↔
    ∃ before t later steps v, body = before ++ t :: later ∧ Compiles host before s steps v ∧
      t.Stops host v failure u
  /-- The failure does not depend on what stands behind the token that stops. -/
  ignores : ∀ before t later steps v failure u, body = before ++ t :: later →
    Compiles host before s steps v → t.Stops host v failure u →
    ∀ other, compileTokens host (before ++ t :: other) s = .error failure u
  defines : ∀ steps u, Compiles host body s steps u → ∀ place name,
    defineFromTokens host place name body s = install place name steps u
  defines_nothing : ∀ failure u, compileTokens host body s = .error failure u → ∀ place name,
    defineFromTokens host place name body s = .error failure u

theorem compiles_in_order (host : Host κ σ) (body : List Token) (s : Session κ σ) :
    CompilesInOrder host body s := by
  constructor
  · intro steps u
    constructor
    · intro hok
      obtain ⟨found, v, h⟩ | ⟨before, t, later, found, v, failure, x, rfl, h, ht⟩ :=
        compiles_or_stops host body s
      · rw [h.compileTokens_eq] at hok
        cases hok
        exact h
      · rw [h.compileTokens_of_stops ht] at hok
        cases hok
    · exact Compiles.compileTokens_eq
  · intro failure u
    constructor
    · intro hfailed
      obtain ⟨found, v, h⟩ | ⟨before, t, later, found, v, failed, x, rfl, h, ht⟩ :=
        compiles_or_stops host body s
      · rw [h.compileTokens_eq] at hfailed
        cases hfailed
      · rw [h.compileTokens_of_stops ht] at hfailed
        cases hfailed
        exact ⟨before, t, later, found, v, rfl, h, ht⟩
    · rintro ⟨before, t, later, steps, v, rfl, h, ht⟩
      exact h.compileTokens_of_stops ht later
  · intro before t later steps v failure u _ h ht other
    exact h.compileTokens_of_stops ht other
  · intro steps u h place name
    exact bind_of_ok h.compileTokens_eq
  · intro failure u hfailed place name
    exact bind_of_error hfailed

/-- An immediate word can bind the name that stands behind it. -/
example :
    let host : Host Unit Unit := fun _ _ =>
      defineWord { name := "later", behavior := .literal (.int 7) }
    let now : Word (Behavior Unit) := { name := "now", immediate := true, behavior := .host () }
    let s : Session Unit Unit :=
      { dictionary := Dictionary.empty.define now, source := .ofText "" "", hostState := () }
    ∃ u, compileTokens host [{ text := "now" }, { text := "later" }] s =
      .ok [(.literal (.int 7), "later")] u :=
  ⟨_, rfl⟩

end Forth
