import Forth.Proofs.Session.Reachable

/-! # Every token takes something from the source

What is evaluated never puts anything back, so the bound of a run is never
reached. A run is a flush, a token, its evaluation, and the same run again.
-/

namespace Forth

open Session

namespace Source

theorem length_state_nextToken_le (s : Source) :
    (nextToken s).state.unread.length ≤ s.unread.length := by
  cases h : nextToken s with
  | ok token t => exact (moved_of_nextToken h).length_le
  | error failure t => exact (met_of_nextToken h).length_lt.le

theorem length_state_restOfLine_le (s : Source) :
    (restOfLine s).state.unread.length ≤ s.unread.length := by
  cases h : restOfLine s with
  | ok line t => exact (moved_of_restOfLine h).length_le
  | error failure t => exact (met_of_restOfLine h).length_lt.le

theorem Drafts.length_le {comments : Bool} {s u : Source} {d : Draft} (h : Drafts comments s d u) :
    u.unread.length ≤ s.unread.length := by
  induction h with
  | failed hn => exact (met_of_nextToken hn).length_lt.le
  | cutOff hn | closed hn => exact (moved_of_nextToken hn).length_le
  | commentFailed hn _ _ hline =>
    exact (met_of_restOfLine hline).length_lt.le.trans (moved_of_nextToken hn).length_le
  | comment hn _ _ hline _ ih =>
    exact ih.trans ((moved_of_nextToken hn).trans (moved_of_restOfLine hline)).length_le
  | token hn _ _ _ ih => exact ih.trans (moved_of_nextToken hn).length_le

theorem length_draft_le (comments : Bool) (s : Source) :
    (s.draft comments).2.unread.length ≤ s.unread.length := by
  obtain ⟨failed, t, hn, hd⟩ | ⟨t, hn, hd⟩ | ⟨name, t, d, u, hn, hbody, hd⟩ :=
    draft_cases comments s
  · rw [hd]
    exact (met_of_nextToken hn).length_lt.le
  · rw [hd]
    exact (moved_of_nextToken hn).length_le
  · rw [hd]
    exact hbody.length_le.trans (moved_of_nextToken hn).length_le

end Source

variable {σ : Type}

structure Session.Within (n : Nat) (s : Session Empty σ) : Prop where
  standard : s.dictionary.Standard
  length_le : s.source.unread.length ≤ n

theorem Session.Within.invariant (n : Nat) :
    Invariant (Session.Within n : Session Empty σ → Prop) := by
  refine .of_reading (P := fun d u => d.Standard ∧ u.unread.length ≤ n) ?_ ?_ ?_ ?_
  · exact fun s => ⟨fun hs => ⟨hs.standard, hs.length_le⟩, fun hs => ⟨hs.1, hs.2⟩⟩
  · intro s hs
    refine ⟨standard_define .none hs.standard, ?_⟩
    rw [source_define .none hs.standard]
    exact (Source.length_draft_le _ _).trans hs.length_le
  · exact fun d u h => ⟨h.1, (Source.length_state_nextToken_le u).trans h.2⟩
  · exact fun d u h => ⟨h.1, (Source.length_state_restOfLine_le u).trans h.2⟩

/-- One turn of a run, where `rest` is what follows the token. -/
def runTurn (rest : SessionM Empty σ Ending) : SessionM Empty σ Ending := do
  flush
  if (← get).exiting then return .terminated
  match ← nextToken with
  | none => return .endOfInput
  | some t =>
    evaluate .none t
    rest

theorem runWithin_succ (bound : Nat) :
    (runWithin .none (bound + 1) : SessionM Empty σ Ending) = runTurn (runWithin .none bound) := rfl

section RunTurn

variable {rest : SessionM Empty σ Ending} {s v w : Session Empty σ}

theorem runTurn_of_flush_error {failure : Failure} (h : flush s = .error failure v) :
    runTurn rest s = .error failure v :=
  bind_of_error h

theorem runTurn_of_exiting (h : flush s = .ok () v) (hexit : v.exiting = true) :
    runTurn rest s = .ok .terminated v := by
  refine (bind_of_ok h).trans ?_
  rw [get_bind_apply, hexit]
  rfl

theorem runTurn_of_not_exiting (h : flush s = .ok () v) (hexit : v.exiting = false) :
    runTurn rest s = (do
      match ← nextToken with
      | none => return .endOfInput
      | some t =>
        evaluate .none t
        rest : SessionM Empty σ Ending) v := by
  refine (bind_of_ok h).trans ?_
  rw [get_bind_apply, hexit]
  rfl

theorem runTurn_of_read_error {failure : Failure} (h : flush s = .ok () v)
    (hexit : v.exiting = false) (hn : nextToken v = .error failure w) :
    runTurn rest s = .error failure w :=
  (runTurn_of_not_exiting h hexit).trans (bind_of_error hn)

theorem runTurn_of_end (h : flush s = .ok () v) (hexit : v.exiting = false)
    (hn : nextToken v = .ok none w) : runTurn rest s = .ok .endOfInput w :=
  (runTurn_of_not_exiting h hexit).trans (bind_of_ok hn)

theorem runTurn_of_token {t : Token} (h : flush s = .ok () v) (hexit : v.exiting = false)
    (hn : nextToken v = .ok (some t) w) :
    runTurn rest s = (do evaluate .none t; rest : SessionM Empty σ Ending) w :=
  (runTurn_of_not_exiting h hexit).trans (bind_of_ok hn)

theorem within_of_token {t : Token} (hd : s.dictionary.Standard) (h : flush s = .ok () v)
    (hn : nextToken v = .ok (some t) w) :
    w.dictionary.Standard ∧ w.source.unread.length < s.source.unread.length := by
  obtain ⟨o, -, rfl⟩ := exists_of_onOutput_ok h
  obtain ⟨u, hu, rfl⟩ := exists_of_onSource_ok hn
  exact ⟨hd, Source.length_lt_of_nextToken hu⟩

theorem runTurn_congr {f g : SessionM Empty σ Ending} (hd : s.dictionary.Standard)
    (h : ∀ t : Session Empty σ, t.dictionary.Standard →
      t.source.unread.length < s.source.unread.length → f t = g t) :
    runTurn f s = runTurn g s := by
  cases hf : flush s with
  | error failure v => rw [runTurn_of_flush_error hf, runTurn_of_flush_error hf]
  | ok _ v =>
    cases hexit : v.exiting with
    | true => rw [runTurn_of_exiting hf hexit, runTurn_of_exiting hf hexit]
    | false =>
      cases hn : nextToken v with
      | error failure w =>
        rw [runTurn_of_read_error hf hexit hn, runTurn_of_read_error hf hexit hn]
      | ok token w =>
        cases token with
        | none => rw [runTurn_of_end hf hexit hn, runTurn_of_end hf hexit hn]
        | some t =>
          obtain ⟨hw, hlt⟩ := within_of_token hd hf hn
          have hx := (Session.Within.invariant _).evaluate t w ⟨hw, le_rfl⟩
          rw [runTurn_of_token hf hexit hn, runTurn_of_token hf hexit hn, bind_apply, bind_apply]
          cases he : evaluate .none t w with
          | error failure x => rfl
          | ok _ x =>
            rw [he] at hx
            exact h x hx.standard (hx.length_le.trans_lt hlt)

end RunTurn

/-- Any two bounds above the number of unread items give the same run. -/
theorem runWithin_eq {a b : Nat} {s : Session Empty σ} (hd : s.dictionary.Standard)
    (ha : s.source.unread.length < a) (hb : s.source.unread.length < b) :
    runWithin .none a s = runWithin .none b s := by
  induction a generalizing b s with
  | zero => omega
  | succ a ih =>
    obtain ⟨b, rfl⟩ : ∃ n, b = n + 1 := ⟨b - 1, by omega⟩
    rw [runWithin_succ, runWithin_succ]
    refine runTurn_congr hd fun t ht hlt => ih ht ?_ ?_
    · omega
    · omega

theorem run_eq_runTurn {s : Session Empty σ} (hd : s.dictionary.Standard) :
    run .none s = runTurn (run .none) s := by
  change runWithin .none (s.source.unread.length + s.source.reserve + 1) s = _
  rw [runWithin_succ]
  refine runTurn_congr hd fun t ht hlt => ?_
  change _ = runWithin .none t.source.bound t
  have hbound : t.source.bound = t.source.unread.length + t.source.reserve + 1 := rfl
  exact runWithin_eq ht (by omega) (by omega)

end Forth
