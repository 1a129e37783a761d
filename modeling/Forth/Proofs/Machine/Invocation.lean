import Forth.Proofs.Machine.Definition
import Forth.Proofs.Run.Progress

/-! # How the machine invokes a behavior

An invocation comes to its answer, in as many steps as the behavior weighs and at
most two more for each character that its definitions read. What is invoked on
the way weighs less.
-/

namespace Forth

open Session

variable {σ : Type}

theorem Primitive.run_congr {p : Primitive} (hp : p ≠ .colon) (define other : SessionM Empty σ Unit)
    (name : String) : p.run define name = p.run other name := by
  cases p with
  | colon => exact absurd rfl hp
  | _ => rfl

theorem standard_invoke {s : Session Empty σ} (hs : s.dictionary.Standard) (b : Behavior Empty)
    (name : String) : (invoke .none b name s).state.dictionary.Standard :=
  ((Session.Within.invariant _).invoke b name s ⟨hs, le_rfl⟩).standard

namespace Machine

/-- In what an invocation comes to its answer. -/
def Answers (b : Behavior Empty) (name : String) (frames : List Frame) (s : Session Empty σ) :
    Prop :=
  ∃ n, Comes (Inside b frames) n (start name frames s b)
      (answering frames (Forth.invoke .none b name s)) ∧
    n + 1 + 2 * (Forth.invoke .none b name s).state.source.unreadChars ≤
      b.weight + 2 * s.source.unreadChars

theorem answers_primitive {s : Session Empty σ} (hs : s.dictionary.Standard) (p : Primitive)
    (name : String) (frames : List Frame) : Answers (.primitive p) name frames s := by
  by_cases hp : p = .colon
  · subst hp
    obtain ⟨n, hcomes, hn⟩ := start_colon_comes hs name frames
    refine ⟨n, hcomes, ?_⟩
    change n + 1 + 2 * (define .none s).state.source.unreadChars ≤ 2 + 2 * s.source.unreadChars
    omega
  · have hinvoke : Forth.invoke .none (.primitive p) name s = p.run (pure ()) name s :=
      congrFun (Primitive.run_congr hp (define .none) (pure ()) name) s
    have hle := Source.unreadChars_le (Session.Onward.primitive hp (pure ()) name s).unread
    rw [Answers, start_primitive hp, hinvoke]
    refine ⟨0, .refl _, ?_⟩
    rw [Behavior.weight, if_neg hp]
    omega

section Replay

variable {b : Behavior Empty} {word name : String} {steps rest : List (Step Empty)}
  {frames : List Frame} {s t : Session Empty σ}

theorem step_comes (hmem : (b, word) ∈ steps) (hexit : s.exiting = false) {n : Nat}
    (h : Comes (Inside b (.replay rest :: frames)) n (start word (.replay rest :: frames) s b)
      (answering (.replay rest :: frames) (Forth.invoke .none b word s))) :
    Comes (Inside (.compiled steps) frames) (n + 1 + 1)
      (answer (.ok ()) (.replay ((b, word) :: rest) :: frames) s)
      (answering (.replay rest :: frames) (Forth.invoke .none b word s)) := by
  have hstep : step (answer (.ok ()) (.replay ((b, word) :: rest) :: frames) s) =
      invoke b word (.replay rest :: frames) s :=
    if_neg (by simp [hexit])
  refine .cons (inside_answer ..) ?_
  rw [hstep]
  exact .cons (inside_invoke (.step hmem) ..) (h.mono fun _ hinside => hinside.of_step hmem)

/-- A replay is answered if every step of it is. -/
theorem replay_comes (name : String) (frames : List Frame) (hsub : rest ⊆ steps)
    (hs : s.dictionary.Standard)
    (hsteps : ∀ step ∈ rest, ∀ (more : List Frame) (t : Session Empty σ),
      t.dictionary.Standard → Answers step.1 step.2 more t) :
    ∃ n, Comes (Inside (.compiled steps) frames) n (answer (.ok ()) (.replay rest :: frames) s)
        (answering frames (Forth.invoke .none (.compiled rest) name s)) ∧
      n + 2 * (Forth.invoke .none (.compiled rest) name s).state.source.unreadChars ≤
        1 + Behavior.weight.total rest + 2 * s.source.unreadChars := by
  induction rest generalizing s with
  | nil => exact ⟨1, comes_of_step rfl, le_rfl⟩
  | cons first rest ih =>
    obtain ⟨b, word⟩ := first
    have hweight : Behavior.weight.total ((b, word) :: rest) =
        1 + b.weight + Behavior.weight.total rest := rfl
    cases hexit : s.exiting with
    | true =>
      have hstep : step (answer (.ok ()) (.replay ((b, word) :: rest) :: frames) s) =
          answer (.ok ()) frames s :=
        if_pos hexit
      rw [Behavior.invoke_cons_of_exiting hexit]
      exact ⟨1, comes_of_step hstep, Nat.add_le_add_right (by omega) _⟩
    | false =>
      obtain ⟨n, hfirst, hn⟩ := hsteps (b, word) List.mem_cons_self (.replay rest :: frames) s hs
      have hbegin := step_comes (hsub List.mem_cons_self) hexit hfirst
      have ht := standard_invoke hs b word
      simp only at hn
      cases hinvoke : Forth.invoke .none b word s with
      | error failure t =>
        rw [hinvoke] at hbegin hn
        rw [Behavior.invoke_cons_of_error hexit hinvoke]
        refine ⟨n + 1 + 1 + 1, hbegin.trans (comes_of_step rfl), ?_⟩
        simp only [EStateM.Result.state_error] at hn ⊢
        omega
      | ok _ t =>
        rw [hinvoke] at hbegin hn ht
        rw [Behavior.invoke_cons_of_ok hexit hinvoke]
        obtain ⟨k, hrest, hk⟩ := ih (s := t) (fun _ h => hsub (List.mem_cons_of_mem _ h)) ht
          (fun step hstep => hsteps step (List.mem_cons_of_mem _ hstep))
        refine ⟨n + 1 + 1 + k, hbegin.trans hrest, ?_⟩
        simp only [EStateM.Result.state_ok] at hn
        omega

end Replay

theorem answers {s : Session Empty σ} (hs : s.dictionary.Standard) (b : Behavior Empty)
    (name : String) (frames : List Frame) : Answers b name frames s := by
  -- the induction is on the tree of steps
  have hb := Behavior.BuiltFrom.of_no_host b
  induction hb generalizing name frames s with
  | @primitive p _ => exact answers_primitive hs p name frames
  | literal v => exact ⟨0, .refl _, le_rfl⟩
  | @compiled steps _ ih =>
    obtain ⟨n, hcomes, hn⟩ := replay_comes name frames (List.Subset.refl steps) hs
      fun step hstep more t ht => ih step hstep ht step.2 more
    refine ⟨n, hcomes, ?_⟩
    rw [Behavior.weight]
    omega

end Machine

end Forth
