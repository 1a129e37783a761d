import Forth.Proofs.Output
import Forth.Proofs.Primitive.Effect
import Forth.Session.Run

/-! # Stack effects

A signature says which operands a word takes off the top of the stack, which
values it puts there instead, and what it writes. On an output that takes
everything a word does what one of its signatures says, and leaves all else of
the session alone. Two things stand in its way: too few values, and an integer
divided by zero. Both are reported, and empty the stack.
-/

namespace Forth

open Session

namespace Primitive

/-- Operands and results stand in the order in which they were pushed. -/
inductive Signature : Primitive → List Value → List Value → String → Prop
  | dup (a : Value) : Signature .dup [a] [a, a] ""
  | drop (a : Value) : Signature .drop [a] [] ""
  | dot (a : Value) : Signature .dot [a] [] a.render
  | swap (a b : Value) : Signature .swap [a, b] [b, a] ""
  | copySecond (a b : Value) : Signature .copySecond [a, b] [a, b, a] ""
  | rotate (a b c : Value) : Signature .rotate [a, b, c] [b, c, a] ""
  | plus (a b : Value) : Signature .plus [a, b] [a + b] ""
  | subtract (a b : Value) : Signature .subtract [a, b] [a - b] ""
  | mult (a b : Value) : Signature .mult [a, b] [a * b] ""
  | divide {a b q : Value} : a.div? b = some q → Signature .divide [a, b] [q] ""

/-- The report of a word that needs more values than there are on the stack. -/
def underflowReport (name : String) (needed : Nat) (stack : Stack) : String :=
  if needed = 1 then name ++ " stack underflow\n"
  else name ++ " stack underflow: " ++ stack.render ++ "\n"

section Effect

variable {p : Primitive} {operands results : List Value} {text : String}

theorem Signature.length_operands (h : p.Signature operands results text) :
    operands.length = p.operands := by
  cases h <;> rfl

theorem div?_eq_none_iff {v w : Value} :
    v.div? w = none ↔ ∃ a, v = .int a ∧ w = .int 0 := by
  constructor
  · rcases v with a | x <;> rcases w with b | y <;> intro h
    · by_cases hb : b = 0
      · exact ⟨a, rfl, hb ▸ rfl⟩
      · rw [Value.div?, if_neg hb] at h
        cases h
    · cases h
    · cases h
    · cases h
  · rintro ⟨a, rfl, rfl⟩
    rfl

/-- Enough values are operands of a signature, unless they are divided by zero. -/
theorem exists_signature {stack : Stack} (hp : p.operands ≠ 0) (h : p.operands ≤ stack.length) :
    (∃ operands results text below,
      p.Signature operands results text ∧ stack = operands.reverse ++ below) ∨
      p = .divide ∧ ∃ a below, stack = .int 0 :: .int a :: below := by
  cases p with
  | dup | drop | dot =>
    obtain ⟨a, below, rfl⟩ := exists_one h
    exact .inl ⟨[a], _, _, below, by constructor, rfl⟩
  | plus | mult | subtract | swap | copySecond =>
    obtain ⟨b, a, below, rfl⟩ := exists_two h
    exact .inl ⟨[a, b], _, _, below, by constructor, rfl⟩
  | rotate =>
    obtain ⟨c, b, a, below, rfl⟩ := exists_three h
    exact .inl ⟨[a, b, c], _, _, below, .rotate a b c, rfl⟩
  | divide =>
    obtain ⟨b, a, below, rfl⟩ := exists_two h
    cases hq : a.div? b with
    | some q => exact .inl ⟨[a, b], _, _, below, .divide hq, rfl⟩
    | none =>
      obtain ⟨n, rfl, rfl⟩ := div?_eq_none_iff.mp hq
      exact .inr ⟨rfl, n, below, rfl⟩
  | dupIfAny | dotStack | dotDictionary | bye | comment | colon | cr => exact absurd rfl hp

theorem worksOnStack_of_operands (hp : p.operands ≠ 0) : p.WorksOnStack := by
  refine ⟨?_, ?_, ?_⟩ <;> rintro rfl <;> exact hp rfl

theorem Signature.operands_ne_zero (h : p.Signature operands results text) : p.operands ≠ 0 := by
  cases h <;> decide

theorem Signature.effect_eq (h : p.Signature operands results text) (name : String)
    (below : Stack) :
    (p.effect name (operands.reverse ++ below)).left = results.reverse ++ below ∧
      (p.effect name (operands.reverse ++ below)).text.getD "" = text ∧
      (p.effect name (operands.reverse ++ below)).exits = false := by
  have hle : ¬(operands.reverse ++ below).length < p.operands := by
    rw [List.length_append, List.length_reverse, h.length_operands]
    omega
  rw [effect, if_neg hle]
  cases h with
  | divide hq => simp [effectOn, hq]
  | dup | drop | dot | swap | copySecond | rotate | plus | subtract | mult => exact ⟨rfl, rfl, rfl⟩

theorem text_underflow (name : String) {needed : Nat} (hneeded : needed ≠ 0) (stack : Stack) :
    (Effect.underflow name needed stack).text = some (underflowReport name needed stack) := by
  change some (name ++ " stack underflow" ++ (if 1 < needed then ": " ++ stack.render else "") ++ "\n") = _
  rw [underflowReport]
  by_cases hone : needed = 1
  · rw [if_pos hone, if_neg (by omega), String.append_empty, String.append_assoc]
    rfl
  · have hcolon : " stack underflow: " = " stack underflow" ++ ": " := rfl
    rw [if_neg hone, if_pos (by omega), hcolon]
    simp only [String.append_assoc]

end Effect

end Primitive

section Reliable

variable {κ σ : Type} {s : Session κ σ}

theorem Output.append_empty (o : Output) : o.append "" = o := by
  simp [Output.append]

theorem Primitive.Effect.perform_of_reliable (e : Effect) (h : s.output.Reliable) :
    e.perform s =
      .ok () { s with
        stack := e.left, output := s.output.append (e.text.getD ""), exiting := e.exits || s.exiting } := by
  obtain ⟨held, text, left, exits⟩ := e
  rw [perform, modify_bind_apply]
  cases text with
  | none =>
    rw [Option.getD_none, Output.append_empty]
    rfl
  | some text =>
    have hprint := print_of_reliable (s := { s with stack := held }) h text
    exact bind_of_ok hprint

end Reliable

/-- What the words that work on the top of the stack do when they are invoked under a name. All of
the session that is not named stays as it is. -/
structure StackEffects {κ σ : Type} (host : Host κ σ) (name : String) (s : Session κ σ) : Prop where
  replaces : ∀ p operands results text below, Primitive.Signature p operands results text →
    s.stack = operands.reverse ++ below →
    invoke host (.primitive p) name s =
      .ok () { s with stack := results.reverse ++ below, output := s.output.append text }
  /-- There is nothing between a signature, a division by zero and too few values. -/
  complete : ∀ p : Primitive, p.operands ≠ 0 → p.operands ≤ s.stack.length →
    (∃ operands results text below,
      p.Signature operands results text ∧ s.stack = operands.reverse ++ below) ∨
      p = .divide ∧ ∃ a below, s.stack = .int 0 :: .int a :: below
  divisionByZero : ∀ a below, s.stack = .int 0 :: .int a :: below →
    invoke host (.primitive .divide) name s =
      .ok () { s with stack := [], output := s.output.append (name ++ " division by zero\n") }
  underflow : ∀ p : Primitive, s.stack.length < p.operands →
    invoke host (.primitive p) name s =
      .ok () { s with
        stack := [], output := s.output.append (Primitive.underflowReport name p.operands s.stack) }
  dupIfAny_cons : ∀ a below, s.stack = a :: below →
    invoke host (.primitive .dupIfAny) name s = .ok () { s with stack := a :: a :: below }
  dupIfAny_nil : s.stack = [] → invoke host (.primitive .dupIfAny) name s = .ok () s

section Invoke

variable {κ σ : Type} {s : Session κ σ}

theorem invoke_of_effect {p : Primitive} (hp : p.WorksOnStack) (h : s.output.Reliable)
    (host : Host κ σ) (name : String) :
    invoke host (.primitive p) name s =
      .ok () { s with
        stack := (p.effect name s.stack).left,
        output := s.output.append ((p.effect name s.stack).text.getD ""),
        exiting := (p.effect name s.stack).exits || s.exiting } :=
  (Primitive.run_eq_perform hp (define host) name s).trans
    ((p.effect name s.stack).perform_of_reliable h)

theorem stack_effects (host : Host κ σ) (name : String) (h : s.output.Reliable) :
    StackEffects host name s := by
  constructor
  case replaces =>
    intro p operands results text below hp hs
    obtain ⟨hleft, htext, hexits⟩ := hp.effect_eq name below
    rw [invoke_of_effect (Primitive.worksOnStack_of_operands hp.operands_ne_zero) h, hs, hleft,
      htext, hexits, Bool.false_or]
  case complete =>
    intro p hp hle
    exact Primitive.exists_signature hp hle
  case divisionByZero =>
    intro a below hs
    have hp : Primitive.divide.operands ≠ 0 := by decide
    rw [invoke_of_effect (Primitive.worksOnStack_of_operands hp) h, hs]
    rfl
  case underflow =>
    intro p hlt
    have hp : p.operands ≠ 0 := by omega
    rw [invoke_of_effect (Primitive.worksOnStack_of_operands hp) h, Primitive.effect, if_pos hlt,
      Primitive.text_underflow name hp]
    rfl
  case dupIfAny_cons =>
    intro a below hs
    obtain ⟨stack, dictionary, source, output, current, exiting, hostState⟩ := s
    cases hs
    rfl
  case dupIfAny_nil =>
    intro hs
    obtain ⟨stack, dictionary, source, output, current, exiting, hostState⟩ := s
    cases hs
    rfl

/-- Here `rot` finds two values only. -/
theorem stack_effects_rotate :
    let s : Session Empty Unit :=
      { stack := [.int 2, .int 1], source := .ofText "" "", hostState := () }
    s.output.Reliable ∧ StackEffects .none "rot" s ∧
      invoke .none (.primitive .rotate) "rot" s =
        .ok () { s with
          stack := [], output := s.output.append "rot stack underflow: <2> [1, 2]\n" } := by
  intro s
  have hreliable : s.output.Reliable := ⟨rfl, nofun⟩
  have heffects := stack_effects .none "rot" hreliable
  have hreport : Primitive.underflowReport "rot" 3 s.stack = "rot stack underflow: <2> [1, 2]\n" := by
    decide +kernel
  have hunderflow := heffects.underflow .rotate (by decide)
  rw [show Primitive.rotate.operands = 3 from rfl, hreport] at hunderflow
  exact ⟨hreliable, heffects, hunderflow⟩

end Invoke

end Forth
