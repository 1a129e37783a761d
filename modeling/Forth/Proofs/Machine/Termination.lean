import Forth.Proofs.Definition.Extent
import Forth.Proofs.Machine.Invocation

/-! # Every run ends

The machine has no bound on what it does, and still every run of it ends, in what
the run of the session comes to. Each turn takes something from the source. In a
turn the replays are finite trees of steps, since a definition captures what was
bound before it. The definitions that are replayed read on in the source.
-/

namespace Forth

open Session

variable {σ : Type}

namespace Machine

section Turn

variable {s v w : Session Empty σ} {t : Token} {failure : Failure}

theorem takeTurn_of_flush_error (h : flush s = .error failure v) :
    takeTurn s = ended (.error failure v) := by
  rw [takeTurn, h]

theorem takeTurn_of_exiting (h : flush s = .ok () v) (hexit : v.exiting = true) :
    takeTurn s = ended (.ok .terminated v) := by
  simp only [takeTurn, h, hexit, if_true]

theorem takeTurn_of_read_error (h : flush s = .ok () v) (hexit : v.exiting = false)
    (hn : nextToken v = .error failure w) : takeTurn s = ended (.error failure w) := by
  simp only [takeTurn, h, hexit, hn, Bool.false_eq_true, if_false]

theorem takeTurn_of_end (h : flush s = .ok () v) (hexit : v.exiting = false)
    (hn : nextToken v = .ok none w) : takeTurn s = ended (.ok .endOfInput w) := by
  simp only [takeTurn, h, hexit, hn, Bool.false_eq_true, if_false]

theorem takeTurn_of_token (h : flush s = .ok () v) (hexit : v.exiting = false)
    (hn : nextToken v = .ok (some t) w) : takeTurn s = takeToken t w := by
  simp only [takeTurn, h, hexit, hn, Bool.false_eq_true, if_false]

theorem step_runToken (t : Token) (w : Session Empty σ) :
    step (answering [] (runToken .none t w)) = evaluated (evaluate .none t w) := by
  obtain ⟨_, x, hr, ha⟩ | ⟨failure, x, hr, hfatal, ha⟩ | ⟨failure, x, hr, hfatal, ha⟩ :=
    attempt_cases (runToken .none t) w
  · have hevaluate : evaluate .none t w = .ok () x := bind_of_ok ha
    rw [hr, hevaluate]
    rfl
  · have hevaluate : evaluate .none t w = .error failure x := bind_of_error ha
    rw [hr, hevaluate]
    exact if_pos hfatal
  · have hevaluate : evaluate .none t w = print s!"{failure.cause.text}\n" x := bind_of_ok ha
    rw [hr, hevaluate]
    exact if_neg (by simp [hfatal])

theorem exists_runToken (t : Token) (hw : w.dictionary.Standard) :
    ∃ n, step^[n] (takeToken t w) = answering [] (runToken .none t w) := by
  rw [takeToken, runToken, get_bind_apply]
  cases w.dictionary.resolve t with
  | none => exact ⟨0, rfl⟩
  | some word =>
    obtain ⟨n, ⟨hanswer, -⟩, -⟩ := answers (s := { w with current := some t.location }) hw
      word.behavior word.name []
    exact ⟨n + 1, hanswer⟩

theorem exists_evaluated (hflush : flush s = .ok () v) (hexit : v.exiting = false)
    (hn : nextToken v = .ok (some t) w) (hw : w.dictionary.Standard) :
    ∃ n, step^[n] (turn s) = evaluated (evaluate .none t w) := by
  have hturn : step (turn s) = takeToken t w := takeTurn_of_token hflush hexit hn
  obtain ⟨n, hanswer⟩ := exists_runToken t hw
  refine ⟨n + 1 + 1, ?_⟩
  rw [Function.iterate_succ_apply, hturn, Function.iterate_succ_apply', hanswer, step_runToken]

/-- The machine ends in what the run comes to. -/
theorem exists_ended (hs : s.dictionary.Standard) :
    ∃ n, step^[n] (turn s) = ended (run .none s) := by
  -- each turn leaves less to read
  induction hn : s.source.unread.length using Nat.strong_induction_on generalizing s with
  | _ n ih =>
    subst hn
    rw [run_eq_runTurn hs]
    cases hflush : flush s with
    | error failure v =>
      rw [runTurn_of_flush_error hflush]
      exact ⟨1, takeTurn_of_flush_error hflush⟩
    | ok _ v =>
      cases hexit : v.exiting with
      | true =>
        rw [runTurn_of_exiting hflush hexit]
        exact ⟨1, takeTurn_of_exiting hflush hexit⟩
      | false =>
        cases hread : nextToken v with
        | error failure w =>
          rw [runTurn_of_read_error hflush hexit hread]
          exact ⟨1, takeTurn_of_read_error hflush hexit hread⟩
        | ok token w =>
          cases token with
          | none =>
            rw [runTurn_of_end hflush hexit hread]
            exact ⟨1, takeTurn_of_end hflush hexit hread⟩
          | some t =>
            obtain ⟨hw, hlt⟩ := within_of_token hs hflush hread
            obtain ⟨n, hevaluated⟩ := exists_evaluated hflush hexit hread hw
            have hx := (Session.Within.invariant _).evaluate t w ⟨hw, le_rfl⟩
            rw [runTurn_of_token hflush hexit hread]
            cases he : evaluate .none t w with
            | error failure x =>
              rw [he] at hevaluated
              rw [bind_of_error he]
              exact ⟨n, hevaluated⟩
            | ok _ x =>
              rw [he] at hevaluated hx
              obtain ⟨m, hended⟩ := ih _ (hx.length_le.trans_lt hlt) hx.standard rfl
              rw [bind_of_ok he]
              refine ⟨m + n, ?_⟩
              rw [Function.iterate_add_apply, hevaluated]
              exact hended

end Turn

end Machine

open Machine

/-- How a run goes that begins in the session. -/
structure Terminates (s : Session Empty σ) : Prop where
  /-- The machine ends after finitely many steps, in what the run comes to. -/
  ends : ∃ n, step^[n] (.turn s) = .ended (run .none s)
  /-- The bound of a run is never reached. -/
  bounded : ∀ bound, s.source.unread.length < bound → runWithin .none bound s = run .none s
  /-- From one turn to another there are fewer characters to read. -/
  turns : ∀ i j v w, i < j → step^[i] (.turn s) = .turn v → step^[j] (.turn s) = .turn w →
    w.source.unreadChars < v.source.unreadChars
  /-- What is invoked comes to its answer, and is not invoked again before. The steps on the way
  are those of its finite tree, and at most two for each character that is read. -/
  answers : ∀ i b name frames v, step^[i] (.turn s) = .invoke b name frames v →
    ∃ n, step^[i + n] (.turn s) = answering frames (invoke .none b name v) ∧
      n + 2 * (invoke .none b name v).state.source.unreadChars ≤
        b.weight + 2 * v.source.unreadChars ∧
      ∀ k, 0 < k → k < n → Inside b frames (step^[i + k] (.turn s)) ∧
        ∀ c word more w, step^[i + k] (.turn s) = .invoke c word more w → c ≠ b
  /-- A definition captures what its tokens referred to before it, and changes no other word. -/
  captures : ∀ i name frames v, step^[i] (.turn s) = .invoke (.primitive .colon) name frames v →
    (define .none v).state.dictionary = v.dictionary ∨
      ∃ w steps, (define .none v).state.dictionary = v.dictionary.define w ∧
        w.behavior = .compiled steps ∧
        ∀ captured ∈ steps, ∃ t x, v.dictionary.resolve t = some x ∧
          captured = (x.behavior, x.name)
  /-- A definition reads through its `;`, or to the end of the input. -/
  definitions : ∀ i name frames v, step^[i] (.turn s) = .invoke (.primitive .colon) name frames v →
    (define .none v).state.source = v.draft.2 ∧
      (s.source.Faultless → (define .none v).state.source.unread =
        Item.afterDefinition v.dictionary.bindsComment v.source.unread)

theorem captures_of_standard {s : Session Empty σ} (hs : s.dictionary.Standard) :
    (define .none s).state.dictionary = s.dictionary ∨
      ∃ w steps, (define .none s).state.dictionary = s.dictionary.define w ∧
        w.behavior = .compiled steps ∧
        ∀ captured ∈ steps, ∃ t x, s.dictionary.resolve t = some x ∧
          captured = (x.behavior, x.name) := by
  obtain ⟨failure, -, hdefine⟩ | ⟨name, -, -, hdefine⟩ := define_of_standard .none hs
  · rw [hdefine]
    exact .inl rfl
  · rw [hdefine]
    refine .inr ⟨_, _, rfl, rfl, fun captured hcaptured => ?_⟩
    obtain ⟨t, -, ht⟩ := List.mem_filterMap.mp hcaptured
    obtain ⟨x, hx, rfl⟩ := Option.map_eq_some_iff.mp ht
    exact ⟨t, x, hx, rfl⟩

theorem terminates {s : Session Empty σ} (hs : Reachable s) : Terminates s := by
  have hvisited {i : Nat} {b : Behavior Empty} {name : String} {frames : List Frame}
      {v : Session Empty σ} (hi : step^[i] (.turn s) = .invoke b name frames v) : s.Onward v := by
    have honward := onward_iterate i (.turn s)
    rwa [hi] at honward
  constructor
  · exact exists_ended hs.standard
  · intro bound hbound
    exact runWithin_eq hs.standard hbound (by rw [Source.bound]; omega)
  · intro i j v w hij hi hj
    exact unreadChars_lt_of_turn hij hi hj
  · intro i b name frames v hi
    obtain ⟨n, ⟨hanswer, hinside⟩, hn⟩ := answers ((hvisited hi).standard hs.standard) b name frames
    have hlater (k : Nat) : step^[i + (k + 1)] (.turn s) = step^[k] (start name frames v b) := by
      rw [Nat.add_comm, Function.iterate_add_apply, hi]
      rfl
    refine ⟨n + 1, (hlater n).trans hanswer, by omega, ?_⟩
    intro k hpos hlt
    obtain ⟨k, rfl⟩ : ∃ j, k = j + 1 := ⟨k - 1, by omega⟩
    have hk := hinside k (Nat.lt_of_succ_lt_succ hlt)
    rw [hlater]
    refine ⟨hk, ?_⟩
    rintro c word more w hc rfl
    exact absurd (hk.invokes c word more w hc).weight_lt (Nat.lt_irrefl _)
  · intro i name frames v hi
    exact captures_of_standard ((hvisited hi).standard hs.standard)
  · intro i name frames v hi
    have hv := (hvisited hi).standard hs.standard
    refine ⟨source_define .none hv, fun hfaultless => ?_⟩
    have hf : v.source.Faultless := fun x hx => hfaultless x ((hvisited hi).unread.mem hx)
    obtain ⟨taken, rest, -, rfl, hsource⟩ := source_define_of_faultless .none hv hf
    rw [hsource]
    rfl

/-- Here a compiled word replays a `:`, whose name and body are read behind it, and a word is
redefined by means of itself. -/
theorem terminates_replayed_colon :
    let s : Session Empty Unit :=
      { dictionary := Dictionary.empty.definePrimitives,
        source := .ofText "" ": def : ; def f dup ; : f f f ; 1 f", hostState := () }
    Reachable s ∧ Terminates s := by
  intro s
  have hs : Reachable s := .start _ ()
  exact ⟨hs, terminates hs⟩

end Forth
