import Forth.Session.Basic

/-! # What an action leaves

Sessions, sources and outputs are worked on by the same kind of action, which
keeps its changes when it fails. These lemmas open a sequence of actions at the
state in which its first part ends.
-/

namespace EStateM.Result

variable {ε τ α : Type}

/-- The state that is left, also by a failure. -/
def state : Result ε τ α → τ
  | .ok _ s | .error _ s => s

def answer : Result ε τ α → Except ε α
  | .ok a _ => .ok a
  | .error e _ => .error e

def mapState (f : τ → τ) : Result ε τ α → Result ε τ α
  | .ok a s => .ok a (f s)
  | .error e s => .error e (f s)

@[simp] theorem state_ok (a : α) (s : τ) : (.ok a s : Result ε τ α).state = s := rfl

@[simp] theorem state_error (e : ε) (s : τ) : (.error e s : Result ε τ α).state = s := rfl

@[simp] theorem answer_ok (a : α) (s : τ) : (.ok a s : Result ε τ α).answer = .ok a := rfl

@[simp] theorem answer_error (e : ε) (s : τ) :
    (.error e s : Result ε τ α).answer = .error e := rfl

@[simp] theorem mapState_ok (f : τ → τ) (a : α) (s : τ) :
    (.ok a s : Result ε τ α).mapState f = .ok a (f s) := rfl

@[simp] theorem mapState_error (f : τ → τ) (e : ε) (s : τ) :
    (.error e s : Result ε τ α).mapState f = .error e (f s) := rfl

@[simp] theorem answer_mapState (f : τ → τ) (r : Result ε τ α) :
    (r.mapState f).answer = r.answer := by
  cases r <;> rfl

@[simp] theorem state_mapState (f : τ → τ) (r : Result ε τ α) :
    (r.mapState f).state = f r.state := by
  cases r <;> rfl

theorem mapState_congr {f g : τ → τ} {r : Result ε τ α} (h : f r.state = g r.state) :
    r.mapState f = r.mapState g := by
  cases r with
  | ok a s => exact congrArg (Result.ok a) h
  | error e s => exact congrArg (Result.error e) h

theorem exists_of_mapState_ok {f : τ → τ} {r : Result ε τ α} {a : α} {t : τ}
    (h : r.mapState f = .ok a t) : ∃ s, r = .ok a s ∧ f s = t := by
  cases r with
  | ok b s =>
    cases h
    exact ⟨s, rfl, rfl⟩
  | error e s => cases h

end EStateM.Result

namespace Forth

section Action

variable {τ α β : Type}

theorem bind_of_ok {m : EStateM Failure τ α} {f : α → EStateM Failure τ β} {s t : τ} {a : α}
    (h : m s = .ok a t) : (m >>= f) s = f a t := by
  simp only [bind, EStateM.bind, h]

theorem bind_of_error {m : EStateM Failure τ α} {f : α → EStateM Failure τ β} {s t : τ}
    {failure : Failure} (h : m s = .error failure t) : (m >>= f) s = .error failure t := by
  simp only [bind, EStateM.bind, h]

theorem bind_apply (m : EStateM Failure τ α) (f : α → EStateM Failure τ β) (s : τ) :
    (m >>= f) s =
      match m s with
      | .ok a t => f a t
      | .error failure t => .error failure t := by
  cases h : m s with
  | ok a t => exact bind_of_ok h
  | error failure t => exact bind_of_error h

theorem eq_ok_of_answer {r : EStateM.Result Failure τ α} {a : α} (h : r.answer = .ok a) :
    r = .ok a r.state := by
  cases r with
  | ok b s =>
    cases h
    rfl
  | error => cases h

theorem bind_error_cases {m : EStateM Failure τ α} {f : α → EStateM Failure τ β} {s u : τ}
    {failure : Failure} (h : (m >>= f) s = .error failure u) :
    m s = .error failure u ∨ ∃ a t, m s = .ok a t ∧ f a t = .error failure u := by
  rw [bind_apply] at h
  cases hm : m s with
  | ok a t =>
    rw [hm] at h
    exact .inr ⟨a, t, rfl, h⟩
  | error failed t =>
    rw [hm] at h
    cases h
    exact .inl rfl

theorem bind_ok_cases {m : EStateM Failure τ α} {f : α → EStateM Failure τ β} {s u : τ} {b : β}
    (h : (m >>= f) s = .ok b u) : ∃ a t, m s = .ok a t ∧ f a t = .ok b u := by
  rw [bind_apply] at h
  cases hm : m s with
  | ok a t =>
    rw [hm] at h
    exact ⟨a, t, rfl, h⟩
  | error failed t =>
    rw [hm] at h
    cases h

/-- A change passes through two actions in a row if it passes through each of them. -/
theorem bind_mapState {f : τ → τ} {m n : EStateM Failure τ α} {g k : α → EStateM Failure τ β} {s : τ}
    (hm : n (f s) = (m s).mapState f)
    (hg : ∀ a t, m s = .ok a t → k a (f t) = (g a t).mapState f) :
    (n >>= k) (f s) = ((m >>= g) s).mapState f := by
  rw [bind_apply, bind_apply, hm]
  cases h : m s with
  | ok a t => exact hg a t h
  | error failure t => rfl

@[simp] theorem modify_apply (f : τ → τ) (s : τ) :
    (modify f : EStateM Failure τ Unit) s = .ok () (f s) := rfl

@[simp] theorem get_bind_apply (f : τ → EStateM Failure τ α) (s : τ) :
    (get >>= f) s = f s s := rfl

@[simp] theorem modify_bind_apply (f : τ → τ) (g : Unit → EStateM Failure τ α) (s : τ) :
    (modify f >>= g) s = g () (f s) := rfl

end Action

namespace Session

variable {κ σ α : Type}

section Parts

variable {s t : Session κ σ} {a : α} {failure : Failure}

theorem onSource_of_ok {m : SourceM α} {u : Source} (h : m s.source = .ok a u) :
    onSource m s = .ok a { s with source := u } := by
  simp only [onSource, h]

theorem onSource_of_error {m : SourceM α} {u : Source} (h : m s.source = .error failure u) :
    (onSource m : SessionM κ σ α) s = .error failure { s with source := u } := by
  simp only [onSource, h]

theorem state_onSource (m : SourceM α) (s : Session κ σ) :
    (onSource m s).state = { s with source := (m s.source).state } := by
  rw [onSource]
  cases m s.source <;> rfl

theorem state_onOutput (m : OutputM α) (s : Session κ σ) :
    (onOutput m s).state = { s with output := (m s.output).state } := by
  rw [onOutput]
  cases m s.output <;> rfl

theorem exists_of_onSource_ok {m : SourceM α} (h : onSource m s = .ok a t) :
    ∃ u, m s.source = .ok a u ∧ t = { s with source := u } := by
  rw [onSource] at h
  cases hm : m s.source with
  | ok b u =>
    rw [hm] at h
    cases h
    exact ⟨u, rfl, rfl⟩
  | error failure u =>
    rw [hm] at h
    cases h

theorem exists_of_onOutput_ok {m : OutputM α} (h : onOutput m s = .ok a t) :
    ∃ o, m s.output = .ok a o ∧ t = { s with output := o } := by
  rw [onOutput] at h
  cases hm : m s.output with
  | ok b o =>
    rw [hm] at h
    cases h
    exact ⟨o, rfl, rfl⟩
  | error failure o =>
    rw [hm] at h
    cases h

end Parts

theorem attempt_of_ok {m : SessionM κ σ α} {s t : Session κ σ} {a : α} (h : m s = .ok a t) :
    attempt m s = .ok (.ok a) t := by
  simp only [attempt, h]

theorem attempt_of_fatal {m : SessionM κ σ α} {s t : Session κ σ} {failure : Failure}
    (h : m s = .error failure t) (hf : failure.isFatal = true) :
    attempt m s = .error failure t := by
  simp only [attempt, h, hf, if_true]

theorem attempt_of_recoverable {m : SessionM κ σ α} {s t : Session κ σ} {failure : Failure}
    (h : m s = .error failure t) (hf : failure.isFatal = false) :
    attempt m s = .ok (.error failure) t := by
  simp only [attempt, h, hf, Bool.false_eq_true, if_false]

theorem attempt_cases (m : SessionM κ σ α) (s : Session κ σ) :
    (∃ a t, m s = .ok a t ∧ attempt m s = .ok (.ok a) t) ∨
    (∃ failure t, m s = .error failure t ∧ failure.isFatal = true ∧
      attempt m s = .error failure t) ∨
    ∃ failure t, m s = .error failure t ∧ failure.isFatal = false ∧
      attempt m s = .ok (.error failure) t := by
  cases h : m s with
  | ok a t => exact .inl ⟨a, t, rfl, attempt_of_ok h⟩
  | error failure t =>
    cases hf : failure.isFatal with
    | true => exact .inr (.inl ⟨failure, t, rfl, hf, attempt_of_fatal h hf⟩)
    | false => exact .inr (.inr ⟨failure, t, rfl, hf, attempt_of_recoverable h hf⟩)

end Session

end Forth
