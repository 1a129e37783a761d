import Forth.Proofs.Definition.Tokens
import Forth.Proofs.Machine.Definition
import Forth.Proofs.Session.Reachable
import Forth.Proofs.Source.Spelling
import Mathlib.Data.List.Forall2

/-! # Two ways of defining a word

A word can be defined by its text, which `:` reads, and from a list of tokens.
The first way goes on to the `;` behind a token that refers to nothing, and the
second one stops there. Both bind the name to the same steps, or fail at the same
token.
-/

namespace Forth

open Session

section Draft

variable {κ : Type} {d : Dictionary (Behavior κ)} {body : List Token}

/-- The draft of a body without comments. -/
def Draft.ofBody (body : List Token) : Draft := { body, ending := .closed }

theorem Source.Spells.drafts {s : Source} {close : Token} {rest : List Item}
    (h : s.Spells (body ++ [close]) rest) (hclose : close.text = endOfDefinition)
    (hbody : ∀ t ∈ body, t.text ≠ endOfDefinition ∧ t.text ≠ Dictionary.commentName)
    (comments : Bool) : ∃ u, Drafts comments s (.ofBody body) u := by
  induction body generalizing s with
  | nil =>
    obtain ⟨u, hn, -⟩ := h.nextToken
    exact ⟨u, .closed hn hclose⟩
  | cons t body ih =>
    obtain ⟨v, hn, hv⟩ := h.nextToken
    obtain ⟨hend, hcomment⟩ := hbody t List.mem_cons_self
    obtain ⟨u, hu⟩ := ih hv fun x hx => hbody x (List.mem_cons_of_mem t hx)
    exact ⟨u, .token hn hend (fun hc => hcomment hc.2) hu⟩

/-- The tokens of a body that can be compiled leave a step each, in their order. -/
theorem forall₂_stepOf? (h : ∀ t ∈ body, (d.resolve t).isSome = true) :
    List.Forall₂ (fun t step => ∃ w, d.resolve t = some w ∧ step = (w.behavior, t.text)) body
      (body.filterMap d.stepOf?) := by
  induction body with
  | nil => exact .nil
  | cons t body ih =>
    obtain ⟨w, hw⟩ := Option.isSome_iff_exists.mp (h t List.mem_cons_self)
    rw [List.filterMap_cons_some (Dictionary.stepOf?_of_resolve hw)]
    refine .cons ⟨w, hw, ?_⟩ (ih fun x hx => h x (List.mem_cons_of_mem t hx))
    rw [Dictionary.name_eq_of_resolve hw]

theorem Draft.failure?_ofBody_cases (body : List Token) (truncated : Failure)
    (d : Dictionary (Behavior κ)) :
    ((ofBody body).failure? truncated d = none ∧ ∀ t ∈ body, (d.resolve t).isSome = true) ∨
      ∃ before t after, (ofBody body).failure? truncated d = some t.unknown ∧
        body = before ++ t :: after ∧ (∀ x ∈ before, (d.resolve x).isSome = true) ∧
        d.resolve t = none := by
  have hfailure : (ofBody body).failure? truncated d =
      (body.find? fun t => (d.resolve t).isNone).map Token.unknown := rfl
  cases hfind : body.find? fun t => (d.resolve t).isNone with
  | none =>
    refine .inl ⟨by rw [hfailure, hfind]; rfl, fun t ht => ?_⟩
    simpa [Option.isSome_iff_ne_none] using List.find?_eq_none.mp hfind t ht
  | some t =>
    obtain ⟨hnone, before, after, hbody, hbefore⟩ := List.find?_eq_some_iff_append.mp hfind
    refine .inr ⟨before, t, after, by rw [hfailure, hfind]; rfl, hbody, fun x hx => ?_, ?_⟩
    · simpa [Option.isSome_iff_ne_none] using hbefore x hx
    · simpa using hnone

end Draft

section Tokens

variable {κ σ : Type} {host : Host κ σ} {s : Session κ σ} {body : List Token}

/-- Where no token begins a comment, none of them does anything while it is compiled. -/
theorem compileTokens_of_standard (hd : s.dictionary.Standard)
    (hbody : ∀ t ∈ body, t.text ≠ Dictionary.commentName) (truncated : Failure) :
    compileTokens host body s =
      finish ((Draft.ofBody body).failure? truncated s.dictionary)
        (body.filterMap s.dictionary.stepOf?) s := by
  induction body with
  | nil => rfl
  | cons t body ih =>
    have ih := ih fun x hx => hbody x (List.mem_cons_of_mem t hx)
    cases hw : s.dictionary.resolve t with
    | none =>
      have hfailure : (Draft.ofBody (t :: body)).failure? truncated s.dictionary =
          some t.unknown :=
        Draft.failure?_token_of_unknown (d := .ofBody body) hw
      rw [hfailure]
      exact compileTokens_of_stops (.unknown hw)
    | some w =>
      have hn : w.immediate = false :=
        immediate_eq_false hd (fun hc => hbody t List.mem_cons_self hc.2) hw
      have hfailure : (Draft.ofBody (t :: body)).failure? truncated s.dictionary =
          (Draft.ofBody body).failure? truncated s.dictionary :=
        Draft.failure?_token_of_resolve (d := .ofBody body) hw
      rw [hfailure, compileTokens_of_step hw hn,
        List.filterMap_cons_some (Dictionary.stepOf?_of_resolve hw),
        Dictionary.name_eq_of_resolve hw]
      exact bind_of_finish _ ih

end Tokens

variable {σ : Type}

/-- The text and the tokens define the same word, or fail at the same token. -/
theorem define_eq_defineFromTokens {s : Session Empty σ} (hs : Reachable s) {name close : Token}
    {body : List Token} {rest : List Item}
    (hinput : s.source.Spells (name :: body ++ [close]) rest)
    (hclose : close.text = endOfDefinition)
    (hbody : ∀ t ∈ body, t.text ≠ endOfDefinition ∧ t.text ≠ Dictionary.commentName) :
    let typed := define .none s
    let listed := defineFromTokens .none name.location name.text body s
    typed.state.stack = listed.state.stack ∧ typed.state.output = listed.state.output ∧
    ((typed.answer = .ok () ∧ listed.answer = .ok () ∧
        (∀ n, typed.state.dictionary.find? n = listed.state.dictionary.find? n) ∧
        ∃ w steps, typed.state.dictionary.find? name.text = some w ∧
          listed.state.dictionary.find? name.text = some w ∧ w.behavior = .compiled steps ∧
          List.Forall₂
            (fun t step => ∃ x, s.dictionary.resolve t = some x ∧ step = (x.behavior, t.text))
            body steps) ∨
      ∃ before t after, body = before ++ t :: after ∧
        (∀ x ∈ before, (s.dictionary.resolve x).isSome = true) ∧ s.dictionary.resolve t = none ∧
        typed.answer = .error { cause := .unknownWord t.text, location := some t.location } ∧
        listed.answer = .error { cause := .unknownWord t.text, location := some t.location } ∧
        typed.state.dictionary = s.dictionary ∧ listed.state.dictionary = s.dictionary) := by
  intro typed listed
  obtain ⟨u, hname, hu⟩ := hinput.nextToken
  obtain ⟨v, hdrafts⟩ := hu.drafts hclose hbody s.dictionary.bindsComment
  have htyped : typed = Machine.close s.truncated name [] (.ofBody body) v { s with source := u } :=
    Machine.define_of_name hname hs.standard hdrafts
  have hcompile : compileTokens .none body s = _ :=
    compileTokens_of_standard hs.standard (fun t ht => (hbody t ht).2) s.truncated
  obtain ⟨hnone, hall⟩ | ⟨before, t, after, hsome, hsplit, hbefore, ht⟩ :=
    Draft.failure?_ofBody_cases body s.truncated s.dictionary
  · rw [hnone] at hcompile
    have hlisted : listed =
        install name.location name.text (body.filterMap s.dictionary.stepOf?) s :=
      bind_of_ok hcompile
    rw [Machine.close_of_success (s := { s with source := u }) name [] hnone] at htyped
    rw [htyped, hlisted]
    refine ⟨rfl, rfl, .inl ⟨rfl, rfl, fun _ => rfl, ?_⟩⟩
    refine ⟨_, _, Dictionary.find?_define_self .., Dictionary.find?_define_self .., rfl, ?_⟩
    exact forall₂_stepOf? hall
  · rw [hsome] at hcompile
    have hlisted : listed = .error t.unknown s := bind_of_error hcompile
    rw [Machine.close_of_failure (s := { s with source := u }) name [] hsome] at htyped
    rw [htyped, hlisted]
    exact ⟨rfl, rfl, .inr ⟨before, t, after, hsplit, hbefore, ht, rfl, rfl, rfl, rfl⟩⟩

/-- Here `who` and `what` refer to nothing, and the text goes on behind the `;`. -/
theorem define_eq_defineFromTokens_unknown :
    let s : Session Empty Unit :=
      { dictionary := Dictionary.empty.definePrimitives,
        source := ⟨.behind "" [':'], " f dup who\nwhat ; 1".toList.map .char, 0⟩, hostState := () }
    let name : Token := ⟨"f", ⟨"", 1, 3⟩⟩
    let body : List Token := [⟨"dup", ⟨"", 1, 5⟩⟩, ⟨"who", ⟨"", 1, 9⟩⟩, ⟨"what", ⟨"", 2, 1⟩⟩]
    let unknown : Failure := { cause := .unknownWord "who", location := some ⟨"", 1, 9⟩ }
    Reachable s ∧ s.source.Spells (name :: body ++ [⟨";", ⟨"", 2, 6⟩⟩]) [.char ' ', .char '1'] ∧
      (∀ t ∈ body, t.text ≠ endOfDefinition ∧ t.text ≠ Dictionary.commentName) ∧
      (define .none s).answer = .error unknown ∧
      (defineFromTokens .none name.location name.text body s).answer = .error unknown := by
  intro s name body unknown
  have hs : Reachable s := .start _ ()
  have hruns : Text.Runs "" [':'] " f dup who\nwhat ;".toList
      (name :: body ++ [⟨";", ⟨"", 2, 6⟩⟩]) :=
    @Text.Runs.cons "" [':'] [' '] ['f'] " dup who\nwhat ;".toList _ rfl nofun rfl rfl <|
    @Text.Runs.cons "" ": f".toList [' '] "dup".toList " who\nwhat ;".toList _ rfl nofun rfl rfl <|
    @Text.Runs.cons "" ": f dup".toList [' '] "who".toList "\nwhat ;".toList _ rfl nofun rfl rfl <|
    @Text.Runs.cons "" ": f dup who".toList ['\n'] "what".toList " ;".toList _ rfl nofun rfl rfl <|
    @Text.Runs.cons "" ": f dup who\nwhat".toList [' '] [';'] [] _ rfl nofun rfl rfl (.done nofun)
  have hinput : s.source.Spells (name :: body ++ [⟨";", ⟨"", 2, 6⟩⟩]) [.char ' ', .char '1'] := by
    refine ⟨"", [':'], " f dup who\nwhat ;".toList, rfl, by decide +kernel, hruns, ?_⟩
    rintro i ⟨⟩
    exact ⟨' ', rfl, by decide +kernel⟩
  have hbody : ∀ t ∈ body, t.text ≠ endOfDefinition ∧ t.text ≠ Dictionary.commentName := by
    decide +kernel
  have hfind : s.dictionary.find? "dup" = some Primitive.dup.word :=
    Dictionary.find?_definePrimitives _ .dup
  have hdup : s.dictionary.resolve ⟨"dup", ⟨"", 1, 5⟩⟩ = some Primitive.dup.word :=
    Dictionary.resolve_of_find? hfind
  have hwho : s.dictionary.resolve ⟨"who", ⟨"", 1, 9⟩⟩ = none := by
    have hnone : (s.dictionary.resolve ⟨"who", ⟨"", 1, 9⟩⟩).isNone = true := by decide +kernel
    simpa using hnone
  obtain ⟨-, -, ⟨-, -, -, w, steps, -, -, -, hsteps⟩ |
    ⟨before, t, after, hsplit, hbefore, ht, htyped, hlisted, -, -⟩⟩ :=
    define_eq_defineFromTokens hs hinput rfl hbody
  · -- the second step would come from a token that refers to nothing
    obtain ⟨_, _, -, hrest, -⟩ := List.forall₂_cons_left_iff.mp hsteps
    obtain ⟨_, _, ⟨x, hx, -⟩, -⟩ := List.forall₂_cons_left_iff.mp hrest
    rw [hwho] at hx
    cases hx
  · have hfirst : t = ⟨"who", ⟨"", 1, 9⟩⟩ := by
      match before, hsplit with
      | [], hsplit =>
        obtain ⟨rfl, -⟩ := List.cons.inj hsplit
        rw [hdup] at ht
        cases ht
      | [x], hsplit =>
        obtain ⟨-, hsplit⟩ := List.cons.inj hsplit
        exact (List.cons.inj hsplit).1.symm
      | x :: y :: more, hsplit =>
        obtain ⟨-, hsplit⟩ := List.cons.inj hsplit
        obtain ⟨rfl, -⟩ := List.cons.inj hsplit
        have hy := hbefore _ (List.mem_cons_of_mem x List.mem_cons_self)
        rw [hwho] at hy
        cases hy
    subst hfirst
    exact ⟨hs, hinput, hbody, htyped, hlisted⟩

end Forth
