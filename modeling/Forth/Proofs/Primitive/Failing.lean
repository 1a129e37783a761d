import Forth.Proofs.Output
import Forth.Proofs.Primitive.Effect
import Forth.Session.Run

/-! # What a failed write leaves on the stack

A primitive that works on the stack, or prints the dictionary, fails only where
its write fails, or where the dictionary cannot be listed. Most of them write
before they take anything, and then nothing is lost. The word that prints the top
value and the report of a division by zero take their operands first, and a write
that fails does not put them back.
-/

namespace Forth

open Session

variable {κ σ : Type}

namespace Primitive

/-- How many operands are off the stack when the primitive writes. -/
def taken : Primitive → Stack → Nat
  | dot, _ :: _ => 1
  | divide, b :: a :: _ => if a.div? b = none then 2 else 0
  | _, _ => 0

theorem taken_of_lt {p : Primitive} {stack : Stack} (h : stack.length < p.operands) :
    p.taken stack = 0 := by
  fun_cases taken p stack with
  | case1 | case2 | case3 =>
    simp only [operands, List.length_cons] at h
    omega
  | case4 => rfl

theorem taken_le_length (p : Primitive) (stack : Stack) : p.taken stack ≤ stack.length := by
  fun_cases taken p stack with
  | case1 | case2 =>
    simp only [List.length_cons]
    omega
  | case3 | case4 => exact Nat.zero_le _

/-- What the stack holds when a text is written is what it held before, without the operands that
are taken by then. -/
theorem held_effectOn {p : Primitive} {name text : String} {stack : Stack}
    (h : (p.effectOn name stack).text = some text) :
    (p.effectOn name stack).held = stack.drop (p.taken stack) := by
  cases p with
  | dot =>
    cases stack with
    | nil => rfl
    | cons a rest => rfl
  | divide =>
    rcases stack with _ | ⟨b, _ | ⟨a, rest⟩⟩
    · rfl
    · rfl
    · cases hq : a.div? b with
      | some q =>
        simp only [effectOn, hq] at h
        cases h
      | none => simp [effectOn, taken, hq]
  | dotStack | cr => rfl
  | plus | mult | subtract | swap | copySecond =>
    rcases stack with _ | ⟨b, _ | ⟨a, rest⟩⟩ <;> cases h
  | rotate => rcases stack with _ | ⟨c, _ | ⟨b, _ | ⟨a, rest⟩⟩⟩ <;> cases h
  | dup | dupIfAny | drop => cases stack <;> cases h
  | dotDictionary | bye | comment | colon => cases h

theorem held_effect {p : Primitive} {name text : String} {stack : Stack}
    (h : (p.effect name stack).text = some text) :
    (p.effect name stack).held = stack.drop (p.taken stack) := by
  rw [effect] at h ⊢
  split
  · rename_i hlt
    rw [taken_of_lt hlt, List.drop_zero]
    rfl
  · rename_i hle
    rw [if_neg hle] at h
    exact held_effectOn h

theorem print_error {text : String} {s t : Session κ σ} {failure : Failure}
    (h : print text s = .error failure t) : failure = Output.closed ∧ t.stack = s.stack := by
  rw [print, onOutput] at h
  cases ho : Output.print text s.output with
  | ok _ o =>
    rw [ho] at h
    cases h
  | error failed o =>
    rw [ho] at h
    cases h
    exact ⟨Output.eq_closed_of_print ho, rfl⟩

theorem Effect.perform_error {e : Effect} {s t : Session κ σ} {failure : Failure}
    (h : e.perform s = .error failure t) :
    failure = Output.closed ∧ t.stack = e.held ∧ ∃ text, e.text = some text := by
  obtain ⟨held, text, left, exits⟩ := e
  cases text with
  | none => cases h
  | some text =>
    rw [perform, modify_bind_apply] at h
    obtain hprint | ⟨_, u, -, hmodify⟩ := bind_error_cases h
    · obtain ⟨hclosed, hstack⟩ := print_error hprint
      exact ⟨hclosed, hstack, text, rfl⟩
    · cases hmodify

end Primitive

section Invoke

variable {host : Host κ σ} {p : Primitive} {name : String} {s t : Session κ σ} {failure : Failure}

/-- A primitive fails in its write, with the stack as it is by then. The one that prints the
dictionary can also fail before its write. -/
theorem stack_of_invoke_error (hcomment : p ≠ .comment) (hcolon : p ≠ .colon)
    (h : invoke host (.primitive p) name s = .error failure t) :
    (failure = Output.closed ∨ p = .dotDictionary ∧ s.dictionary.listing = .error failure) ∧
      t.stack = s.stack.drop (p.taken s.stack) := by
  have hrun : p.run (define host) name s = .error failure t := h
  by_cases hd : p = .dotDictionary
  · subst hd
    have hprint : printOrFail s.dictionary.listing s = .error failure t := hrun
    cases hl : s.dictionary.listing with
    | ok text =>
      rw [hl] at hprint
      obtain ⟨hclosed, hstack⟩ := Primitive.print_error hprint
      exact ⟨.inl hclosed, hstack⟩
    | error failed =>
      rw [hl] at hprint
      cases hprint
      exact ⟨.inr ⟨rfl, rfl⟩, rfl⟩
  · rw [Primitive.run_eq_perform ⟨hd, hcomment, hcolon⟩] at hrun
    obtain ⟨hclosed, hstack, text, htext⟩ := Primitive.Effect.perform_error hrun
    exact ⟨.inl hclosed, hstack.trans (Primitive.held_effect htext)⟩

/-- If the primitive fails, it leaves the stack as it was. -/
def Primitive.AtomicOn (host : Host κ σ) (p : Primitive) (name : String) (s : Session κ σ) : Prop :=
  ∀ failure t, invoke host (.primitive p) name s = .error failure t → t.stack = s.stack

/-- Where a primitive fails, the operands are lost that it had taken by then, so it is atomic exactly
if there are none or if it does not fail. -/
theorem atomicOn_iff (host : Host κ σ) (hcomment : p ≠ .comment) (hcolon : p ≠ .colon)
    (name : String) (s : Session κ σ) :
    (p.AtomicOn host name s ↔
      p.taken s.stack = 0 ∨ ∃ t, invoke host (.primitive p) name s = .ok () t) ∧
    ∀ failure t, invoke host (.primitive p) name s = .error failure t →
      (failure = Output.closed ∨ p = .dotDictionary ∧ s.dictionary.listing = .error failure) ∧
        t.stack = s.stack.drop (p.taken s.stack) := by
  constructor
  · constructor
    · intro hatomic
      cases hr : invoke host (.primitive p) name s with
      | ok _ t => exact .inr ⟨t, rfl⟩
      | error failure t =>
        obtain ⟨-, hdrop⟩ := stack_of_invoke_error hcomment hcolon hr
        have hlength := congrArg List.length (hdrop.symm.trans (hatomic failure t hr))
        have hle := p.taken_le_length s.stack
        rw [List.length_drop] at hlength
        omega
    · rintro (hnone | ⟨u, hok⟩) failure t herror
      · obtain ⟨-, hdrop⟩ := stack_of_invoke_error hcomment hcolon herror
        rw [hdrop, hnone, List.drop_zero]
      · rw [hok] at herror
        cases herror
  · intro failure t herror
    exact stack_of_invoke_error hcomment hcolon herror

/-- Here the report of a division by zero is cut behind its first word. -/
theorem atomicOn_iff_cut :
    let s : Session Empty Unit :=
      { stack := [.int 0, .int 1, .int 7], source := .ofText "" "", output := { room := some 11 },
        hostState := () }
    (Primitive.divide ≠ .comment ∧ Primitive.divide ≠ .colon) ∧
      (Primitive.divide.AtomicOn .none "/" s ↔
        Primitive.divide.taken s.stack = 0 ∨
          ∃ t, invoke .none (.primitive .divide) "/" s = .ok () t) ∧
      ∀ failure t, invoke .none (.primitive .divide) "/" s = .error failure t →
        (failure = Output.closed ∨
          Primitive.divide = .dotDictionary ∧ s.dictionary.listing = .error failure) ∧
          t.stack = s.stack.drop (Primitive.divide.taken s.stack) := by
  intro s
  have hcomment : Primitive.divide ≠ .comment := by decide
  have hcolon : Primitive.divide ≠ .colon := by decide
  exact ⟨⟨hcomment, hcolon⟩, atomicOn_iff .none hcomment hcolon "/" s⟩

/-- A division by zero whose report cannot be written leaves neither operand on the stack. -/
theorem not_atomicOn_divide :
    let s : Session Empty Unit :=
      { stack := [.int 0, .int 1], source := .ofText "" "", output := { room := some 0 },
        hostState := () }
    ¬Primitive.divide.AtomicOn .none "/" s ∧
      ∃ t, invoke .none (.primitive .divide) "/" s = .error Output.closed t ∧ t.stack = [] := by
  intro s
  have herror : invoke .none (.primitive .divide) "/" s =
      .error Output.closed { s with stack := [] } := rfl
  refine ⟨fun hatomic => ?_, _, herror, rfl⟩
  cases hatomic _ _ herror

end Invoke

end Forth
