import Forth.Proofs.Machine.Ending
import Forth.Proofs.Run.Trace
import Forth.Proofs.Session.Counting
import Forth.Proofs.Session.Follows
import Forth.Proofs.Session.Limit

/-! # Runs that a failing flush interrupts

A run flushes before each token and once more before it ends. Where a flush
fails, the tokens before it are evaluated and nothing behind them is read, so
the session can go on from there: running it again comes to what the run would
have come to.
-/

namespace Forth

open Session

variable {σ : Type}

def flushFailed : Failure := { cause := .io "flush failed" }

theorem flush_counting (s : Session Empty σ) (flushes : Nat) (failing : Option Nat) :
    flush (s.counting flushes failing) =
      if failing = some (flushes + 1) then .error flushFailed (s.counting (flushes + 1) failing)
      else .ok () (s.counting (flushes + 1) failing) := by
  have houtput : Output.flush (s.output.counting flushes failing) =
      if failing = some (flushes + 1) then
        .error flushFailed (s.output.counting (flushes + 1) failing)
      else .ok () (s.output.counting (flushes + 1) failing) := rfl
  simp only [flush, onOutput, counting, houtput]
  by_cases h : failing = some (flushes + 1)
  · simp only [if_pos h]
  · simp only [if_neg h]

theorem flush_of_counting {s : Session Empty σ} {flushes : Nat} {failing : Option Nat}
    (hf : failing ≠ some (flushes + 1)) :
    flush (s.counting flushes failing) = .ok () (s.counting (flushes + 1) failing) := by
  rw [flush_counting, if_neg hf]

/-- In so many turns the first session becomes the second one. Each of them evaluates a token,
without a failure. -/
inductive Turns : Nat → Session Empty σ → Session Empty σ → Prop
  | none (s : Session Empty σ) : Turns 0 s s
  | cons {n : Nat} {s w x y : Session Empty σ} {t : Token} :
      Turn s t w → evaluate .none t w = .ok () x → Turns n x y → Turns (n + 1) s y

/-- The next turn of a run is the last one: it evaluates no token, or fails. -/
def LastTurn (s : Session Empty σ) : Prop :=
  ∀ t w x, Turn s t w → evaluate .none t w ≠ .ok () x

section Turns

variable {i j k n flushes : Nat} {s u v w x y : Session Empty σ} {t : Token} {failing : Option Nat}

theorem Turns.unique (h : Turns n s x) (k : Turns n s y) : x = y := by
  induction h with
  | none =>
    cases k
    rfl
  | cons hturn hok _ ih =>
    cases k with
    | cons hturn' hok' hrest =>
      obtain ⟨rfl, rfl⟩ := hturn.unique hturn'
      rw [hok] at hok'
      cases hok'
      exact ih hrest

theorem Turns.split (h : Turns (j + i) s u) : ∃ v, Turns i s v ∧ Turns j v u := by
  induction i generalizing s with
  | zero => exact ⟨s, .none s, h⟩
  | succ i ih =>
    cases h with
    | cons hturn hok hrest =>
      obtain ⟨v, hv, hu⟩ := ih hrest
      exact ⟨v, .cons hturn hok hv, hu⟩

theorem LastTurn.not_turns_succ (hu : LastTurn u) (h : Turns n s u) : ¬Turns (n + 1) s x := by
  rw [Nat.add_comm]
  intro k
  obtain ⟨v, hv, hx⟩ := k.split
  obtain rfl := h.unique hv
  cases hx with
  | cons hturn hok => exact hu _ _ _ hturn hok

theorem Turn.counting (h : Turn s t w) (hf : failing ≠ some (flushes + 1)) :
    Turn (s.counting flushes failing) t (w.counting (flushes + 1) failing) := by
  obtain ⟨v, hflush, hexit, hread⟩ := h
  have hsame : v.counting (flushes + 1) failing = s.counting (flushes + 1) failing := by
    obtain ⟨o, ho, rfl⟩ := exists_of_onOutput_ok hflush
    have hstate := congrArg EStateM.Result.state ho
    rw [Output.state_flush] at hstate
    subst hstate
    rfl
  have hnext := FlushFree.nextToken (flushes + 1) failing v
  rw [hread] at hnext
  refine ⟨v.counting (flushes + 1) failing, ?_, hexit, hnext⟩
  rw [flush_of_counting hf, hsame]

/-- The tokens are evaluated in the same way if the flushes before them do not fail. -/
theorem Turns.counting (h : Turns n s u) (hf : ∀ i < n, failing ≠ some (flushes + i + 1)) :
    Turns n (s.counting flushes failing) (u.counting (flushes + n) failing) := by
  induction h generalizing flushes with
  | none s => exact .none _
  | @cons n s w x y t hturn hok _ ih =>
    have hfirst : failing ≠ some (flushes + 1) := hf 0 (Nat.succ_pos n)
    have hevaluate := flushFree_evaluate t (flushes + 1) failing w
    rw [hok] at hevaluate
    have hlater (i : Nat) (hi : i < n) : failing ≠ some (flushes + 1 + i + 1) := by
      rw [Nat.add_right_comm flushes 1 i]
      exact hf (i + 1) (Nat.succ_lt_succ hi)
    have hrest := ih hlater
    rw [Nat.add_assoc, Nat.add_comm 1 n] at hrest
    exact .cons (hturn.counting hfirst) hevaluate hrest

theorem Turns.onlyComments (h : Turns n s u) (hs : s.dictionary.OnlyComments) :
    u.dictionary.OnlyComments := by
  induction h with
  | none => exact hs
  | cons hturn hok _ ih =>
    exact ih ((onlyComments_invariant.evaluate _).of_ok hok (onlyComments_invariant.of_turn hturn hs))

/-- A run comes to what the run comes to that begins after some of its turns. -/
theorem Turns.run_eq (h : Turns n s u) (hs : s.dictionary.OnlyComments) :
    run .none s = run .none u := by
  have hu := h.onlyComments hs
  suffices hreaches : Machine.Reaches (.turn s) (.turn u) from
    (Machine.reaches_run hs).ended_unique (hreaches.trans (Machine.reaches_run hu))
  clear hu
  induction h with
  | none => exact .refl _
  | @cons n s w x y t hturn hok _ ih =>
    have hw := onlyComments_invariant.of_turn hturn hs
    have hx := (onlyComments_invariant.evaluate t).of_ok hok hw
    obtain ⟨v, hflush, hexit, hread⟩ := hturn
    have hevaluated := Machine.reaches_evaluated t hw
    rw [hok] at hevaluated
    apply Machine.Reaches.step
    rw [show Machine.step (.turn s) = Machine.takeToken t w from
      Machine.takeTurn_of_token hflush hexit hread]
    exact hevaluated.trans (ih hx)

theorem Turn.length_lt (h : Turn s t w) (hs : s.dictionary.OnlyComments)
    (hok : evaluate .none t w = .ok () x) : x.source.unread.length < s.source.unread.length := by
  have hevaluated := Machine.reaches_evaluated t (onlyComments_invariant.of_turn h hs)
  rw [hok] at hevaluated
  have honward : w.Onward x :=
    Onward.steps.trans (Machine.after_takeToken Onward.steps t (Onward.steps.refl w))
      hevaluated.onward
  obtain ⟨v, hflush, -, hread⟩ := h
  obtain ⟨o, -, rfl⟩ := exists_of_onOutput_ok hflush
  obtain ⟨c, hc, rfl⟩ := exists_of_onSource_ok hread
  exact honward.unread.length_le.trans_lt (Source.length_lt_of_nextToken hc)

/-- Each turn takes something from the source, so there is a last one. -/
theorem exists_lastTurn (hs : s.dictionary.OnlyComments) : ∃ n u, Turns n s u ∧ LastTurn u := by
  induction hn : s.source.unread.length using Nat.strong_induction_on generalizing s with
  | _ n ih =>
    subst hn
    by_cases hlast : LastTurn s
    · exact ⟨0, s, .none s, hlast⟩
    · simp only [LastTurn, not_forall, ne_eq, not_not] at hlast
      obtain ⟨t, w, x, hturn, hok⟩ := hlast
      have hw := onlyComments_invariant.of_turn hturn hs
      have hx := (onlyComments_invariant.evaluate t).of_ok hok hw
      have hlt := hturn.length_lt hs hok
      obtain ⟨m, u, hu, hlast⟩ := ih _ hlt hx rfl
      exact ⟨m + 1, u, .cons hturn hok hu, hlast⟩

end Turns

section LastTurn

variable {n flushes : Nat} {s u : Session Empty σ} {failing : Option Nat}

theorem LastTurn.run_counting (hu : LastTurn u) (ho : u.output.Steady)
    (hf : failing ≠ some (flushes + 1)) :
    run .none (u.counting flushes failing) =
      (run .none u).mapState (counting (flushes + 1) failing) := by
  have hflush := flush_of_steady ho
  have hcounting : flush (u.counting flushes failing) =
      .ok () (Session.counting (flushes + 1) failing { u with output := u.output.flushed }) :=
    flush_of_counting hf
  change runTurn _ _ = (runTurn _ u).mapState _
  cases hexit : u.exiting with
  | true =>
    rw [runTurn_of_exiting hflush hexit, runTurn_of_exiting hcounting hexit]
    rfl
  | false =>
    have hnext := FlushFree.nextToken (flushes + 1) failing { u with output := u.output.flushed }
    cases hread : nextToken { u with output := u.output.flushed } with
    | error failure w =>
      rw [hread] at hnext
      rw [runTurn_of_read_error hflush hexit hread, runTurn_of_read_error hcounting hexit hnext]
      rfl
    | ok token w =>
      rw [hread] at hnext
      cases token with
      | none =>
        rw [runTurn_of_end hflush hexit hread, runTurn_of_end hcounting hexit hnext]
        rfl
      | some t =>
        rw [runTurn_of_token hflush hexit hread, runTurn_of_token hcounting hexit hnext]
        have hevaluate := flushFree_evaluate t (flushes + 1) failing w
        cases he : evaluate .none t w with
        | ok _ x => exact absurd he (hu t w x ⟨_, hflush, hexit, hread⟩)
        | error failure x =>
          rw [he] at hevaluate
          rw [bind_of_error he, bind_of_error hevaluate]
          rfl

end LastTurn

theorem Output.Steady.ne {o : Output} (h : o.Steady) (i : Nat) :
    o.failingFlush ≠ some (o.flushes + i + 1) :=
  fun heq => Nat.not_succ_le_self (o.flushes + i) ((h _ heq).trans (Nat.le_add_right _ i))

section Steady

variable {k n flushes : Nat} {s u : Session Empty σ} {failing : Option Nat}

theorem Turns.eq_counting (h : Turns n s u) (ho : s.output.Steady) :
    u = u.counting (s.output.flushes + n) s.output.failingFlush :=
  h.unique (h.counting fun i _ => ho.ne i)

theorem Turns.steady (h : Turns n s u) (ho : s.output.Steady) : u.output.Steady := by
  rw [h.eq_counting ho]
  exact fun m hm => Nat.le_add_right_of_le (ho m hm)

theorem Turns.run_counting (h : Turns k s u) (hu : LastTurn u) (hs : s.dictionary.OnlyComments)
    (ho : s.output.Steady) (hf : ∀ i ≤ k, failing ≠ some (flushes + i + 1)) :
    run .none (s.counting flushes failing) =
      (run .none s).mapState (Session.counting (flushes + k + 1) failing) := by
  have hcounting := h.counting fun i hi => hf i hi.le
  rw [hcounting.run_eq (s := s.counting flushes failing) hs, h.run_eq hs]
  exact hu.run_counting (h.steady ho) (hf k le_rfl)

theorem Turns.flushes_run (h : Turns k s u) (hu : LastTurn u) (hs : s.dictionary.OnlyComments)
    (ho : s.output.Steady) :
    (run .none s).state.output.flushes = s.output.flushes + (k + 1) := by
  have hsame : run .none s = (run .none s).mapState
      (Session.counting (s.output.flushes + k + 1) s.output.failingFlush) :=
    h.run_counting hu hs ho fun i _ => ho.ne i
  rw [hsame, EStateM.Result.state_mapState]
  rfl

/-- A run that does not fail reads no other token. -/
theorem Turns.not_turn {e : Ending} {t : Token} {w : Session Empty σ} (h : Turns k s u)
    (hu : LastTurn u) (hs : s.dictionary.OnlyComments) (he : (run .none s).answer = .ok e) :
    ¬Turn u t w := by
  intro hturn
  obtain ⟨v, hflush, hexit, hread⟩ := id hturn
  have hrun : run .none u = (do evaluate .none t; runWithin .none _ : SessionM Empty σ Ending) w :=
    runTurn_of_token hflush hexit hread
  rw [h.run_eq hs, hrun] at he
  cases hok : evaluate .none t w with
  | ok _ x => exact hu t w x hturn hok
  | error failure x =>
    rw [bind_of_error hok] at he
    cases he

end Steady

/-- The flush `n` of the next run, counted from one, is to fail. -/
def Session.withFailingFlush (n : Nat) (s : Session Empty σ) : Session Empty σ :=
  s.counting s.output.flushes (some (s.output.flushes + n))

/-- The run evaluates `k` tokens without a failure, and then there is no other token that it does. -/
structure EvaluatesInAll (s : Session Empty σ) (k : Nat) (last : Session Empty σ) : Prop where
  turns : Turns k s last
  no_more : ∀ x, ¬Turns (k + 1) s x
  flushes : (run .none s).state.output.flushes = s.output.flushes + (k + 1)
  /-- If the run does not fail, these are all the tokens that it reads. -/
  of_ok : ∀ e, (run .none s).answer = .ok e → ∀ t w, ¬Turn last t w

/-- The run is interrupted by its flush `n + 1`, in the session `v` but for the flushes. -/
structure Interrupted (s : Session Empty σ) (n : Nat) (v : Session Empty σ) : Prop where
  /-- Here the run that is not interrupted is behind `n` tokens, and has read no further. -/
  passes : Turns n s v
  turns : Turns n (s.withFailingFlush (n + 1))
    (v.counting (s.output.flushes + n) (some (s.output.flushes + (n + 1))))
  fails : run .none (s.withFailingFlush (n + 1)) =
    .error flushFailed (v.counting (s.output.flushes + (n + 1)) (some (s.output.flushes + (n + 1))))
  /-- The same run once more comes to what it would have come to, with one flush more. -/
  resumes : run .none (run .none (s.withFailingFlush (n + 1))).state =
    (run .none s).mapState (counting ((run .none s).state.output.flushes + 1)
      (some (s.output.flushes + (n + 1))))

section Interrupted

variable {k n : Nat} {s v last : Session Empty σ}

theorem Turns.withFailingFlush (h : Turns n s v) :
    Turns n (s.withFailingFlush (n + 1))
      (v.counting (s.output.flushes + n) (some (s.output.flushes + (n + 1)))) := by
  refine h.counting fun i hi heq => ?_
  have := Option.some.inj heq
  omega

theorem Turns.run_eq_flushFailed (h : Turns n s v) (hs : s.dictionary.OnlyComments) :
    run .none (s.withFailingFlush (n + 1)) = .error flushFailed
      (v.counting (s.output.flushes + (n + 1)) (some (s.output.flushes + (n + 1)))) := by
  rw [h.withFailingFlush.run_eq (s := s.withFailingFlush (n + 1)) hs]
  apply runTurn_of_flush_error
  rw [flush_counting]
  exact if_pos rfl

theorem interrupted_of_turns (hv : Turns n s v) (hlast : Turns k v last) (hl : LastTurn last)
    (hs : s.dictionary.OnlyComments) (ho : s.output.Steady) : Interrupted s n v := by
  have hfails := hv.run_eq_flushFailed hs
  refine ⟨hv, hv.withFailingFlush, hfails, ?_⟩
  have hvs := hv.onlyComments hs
  have hvo := hv.steady ho
  have hresumed : run .none
      (v.counting (s.output.flushes + (n + 1)) (some (s.output.flushes + (n + 1)))) =
      (run .none v).mapState (counting (s.output.flushes + (n + 1) + k + 1)
        (some (s.output.flushes + (n + 1)))) := by
    refine hlast.run_counting hl hvs hvo fun i _ heq => ?_
    have := Option.some.inj heq
    omega
  have hcount : (run .none v).state.output.flushes + 1 = s.output.flushes + (n + 1) + k + 1 := by
    have hflushes : v.output.flushes = s.output.flushes + n := by
      rw [hv.eq_counting ho]
      rfl
    rw [hlast.flushes_run hl hvs hvo, hflushes]
    omega
  rw [hfails, EStateM.Result.state_error, hresumed, hv.run_eq hs, hcount]

/-- A failing flush interrupts a run between two tokens, and the run can be resumed from there. -/
theorem run_withFailingFlush (hs : Attainable s) (ho : s.output.Steady) :
    ∃ k last, EvaluatesInAll s k last ∧
      ∀ n, (n ≤ k → ∃ v, Interrupted s n v) ∧
        (k < n → run .none (s.withFailingFlush (n + 1)) =
          (run .none s).mapState (counting (run .none s).state.output.flushes
            (some (s.output.flushes + (n + 1))))) := by
  have hd := hs.proper.onlyComments
  obtain ⟨k, last, hturns, hlast⟩ := exists_lastTurn hd
  have hflushes := hturns.flushes_run hlast hd ho
  refine ⟨k, last, ⟨hturns, ?_, hflushes, ?_⟩, fun n => ⟨fun hle => ?_, fun hlt => ?_⟩⟩
  · exact fun x => hlast.not_turns_succ hturns
  · exact fun e he t w => hturns.not_turn hlast hd he
  · obtain ⟨j, rfl⟩ := Nat.exists_eq_add_of_le' hle
    obtain ⟨v, hv, hrest⟩ := hturns.split
    exact ⟨v, interrupted_of_turns hv hrest hlast hd ho⟩
  · rw [hflushes, ← Nat.add_assoc]
    refine hturns.run_counting hlast hd ho fun i hi heq => ?_
    have := Option.some.inj heq
    omega

/-- The sixth flush stands before `bye`, behind a definition, a comment and three tokens more. -/
theorem run_withFailingFlush_bye :
    let s : Session Empty Unit :=
      { dictionary := Dictionary.empty.definePrimitives,
        source := .ofText "" ": two 2 . ; \\ twice\ntwo 3 two bye 4", hostState := () }
    Attainable s ∧ s.output.Steady ∧ (run .none s).answer = .ok .terminated ∧
      (run .none (s.withFailingFlush 6)).answer = .error flushFailed ∧
      ∃ k last, EvaluatesInAll s k last ∧
        ∀ n, (n ≤ k → ∃ v, Interrupted s n v) ∧
          (k < n → run .none (s.withFailingFlush (n + 1)) =
            (run .none s).mapState (counting (run .none s).state.output.flushes
              (some (s.output.flushes + (n + 1))))) := by
  intro s
  have hs : Attainable s := (Reachable.start _ ()).attainable
  have ho : s.output.Steady := nofun
  exact ⟨hs, ho, by decide +kernel, by decide +kernel, run_withFailingFlush hs ho⟩

end Interrupted

end Forth
