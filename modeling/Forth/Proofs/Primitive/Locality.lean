import Forth.Proofs.Session.Commuting

/-! # Primitives on a deeper stack

Most primitives work on their operands alone. Where these are there, and no
division by zero is met, other values below them make no difference: they stay
where they are, and what is written is the same.
-/

namespace Forth

/-- The session with these values at the bottom of its stack. -/
def Session.above {κ σ : Type} (below : Stack) (s : Session κ σ) : Session κ σ :=
  { s with stack := s.stack ++ below }

section Above

open Session

variable {κ σ α : Type} (below : Stack) (s : Session κ σ)

theorem onOutput_above (m : OutputM α) :
    onOutput m (s.above below) = (onOutput m s).mapState (·.above below) :=
  Commutes.onOutput (f := Session.above below) (fun _ _ => rfl) (fun _ => rfl) m s

theorem onSource_above (m : SourceM α) :
    onSource m (s.above below) = (onSource m s).mapState (·.above below) :=
  Commutes.onSource (f := Session.above below) (fun _ _ => rfl) (fun _ => rfl) m s

end Above

namespace Primitive

/-- The primitive looks at its operands and at nothing else on the stack. -/
def IsLocal (p : Primitive) : Prop := p.WorksOnStack ∧ p ≠ dupIfAny ∧ p ≠ dotStack

instance (p : Primitive) : Decidable p.IsLocal :=
  inferInstanceAs (Decidable ((_ ≠ _ ∧ _ ≠ _ ∧ _ ≠ _) ∧ _ ≠ _ ∧ _ ≠ _))

/-- The operands are on the stack, and they are not divided by zero. -/
structure Supplied (p : Primitive) (stack : Stack) : Prop where
  operands : p.operands ≤ stack.length
  divisor : p = divide → ∀ b a rest, stack = b :: a :: rest → a.div? b ≠ none

theorem Supplied.of_ne {p : Primitive} {stack : Stack} (hp : p ≠ divide)
    (h : p.operands ≤ stack.length) : p.Supplied stack :=
  ⟨h, fun hdivide => absurd hdivide hp⟩

namespace Effect

def above (below : Stack) (e : Effect) : Effect :=
  { e with held := e.held ++ below, left := e.left ++ below }

theorem perform_above {κ σ : Type} (e : Effect) (below : Stack) (s : Session κ σ) :
    (e.above below).perform (s.above below) = (e.perform s).mapState (·.above below) := by
  obtain ⟨held, text, left, exits⟩ := e
  cases text with
  | none => rfl
  | some text =>
    refine bind_mapState (by rfl) fun _ t ht => ?_
    cases ht
    exact bind_mapState (onOutput_above below _ _) fun _ _ _ => rfl

end Effect

variable {p : Primitive} {stack : Stack}

theorem effectOn_append (hp : p.IsLocal) (hs : p.Supplied stack) (name : String) (below : Stack) :
    p.effectOn name (stack ++ below) = (p.effectOn name stack).above below := by
  obtain ⟨hstack, hdup, hdot⟩ := hp
  obtain ⟨hoperands, hdivisor⟩ := hs
  cases p with
  | plus | mult | subtract | swap | copySecond =>
    obtain ⟨b, a, rest, rfl⟩ := exists_two hoperands
    rfl
  | divide =>
    obtain ⟨b, a, rest, rfl⟩ := exists_two hoperands
    obtain ⟨q, hq⟩ := Option.ne_none_iff_exists'.mp (hdivisor rfl b a rest rfl)
    simp only [effectOn, List.cons_append, hq]
    rfl
  | dup | drop | dot =>
    obtain ⟨a, rest, rfl⟩ := exists_one hoperands
    rfl
  | rotate =>
    obtain ⟨c, b, a, rest, rfl⟩ := exists_three hoperands
    rfl
  | bye | cr => rfl
  | dupIfAny => exact absurd rfl hdup
  | dotStack => exact absurd rfl hdot
  | dotDictionary => exact absurd rfl hstack.1
  | comment => exact absurd rfl hstack.2.1
  | colon => exact absurd rfl hstack.2.2

theorem effect_append (hp : p.IsLocal) (hs : p.Supplied stack) (name : String) (below : Stack) :
    p.effect name (stack ++ below) = (p.effect name stack).above below := by
  have hdeeper : p.operands ≤ (stack ++ below).length := by
    rw [List.length_append]
    exact Nat.le_add_right_of_le hs.operands
  rw [effect, effect, if_neg (Nat.not_lt.mpr hs.operands), if_neg (Nat.not_lt.mpr hdeeper)]
  exact effectOn_append hp hs name below

theorem run_above {κ σ : Type} (hp : p.IsLocal) {s : Session κ σ} (hs : p.Supplied s.stack)
    (define : SessionM κ σ Unit) (name : String) (below : Stack) :
    p.run define name (s.above below) = (p.run define name s).mapState (·.above below) := by
  rw [run_eq_perform hp.1, run_eq_perform hp.1]
  change (p.effect name (s.stack ++ below)).perform (s.above below) = _
  rw [effect_append hp hs]
  exact Effect.perform_above _ below s

end Primitive

end Forth
