import Forth.Proofs.Machine.Alike

/-! # How a run ends

Only a turn ends a run without a failure, and where it ends with the input
nothing is pending: a definition that has begun and finds no more to read fails
for good.
-/

namespace Forth

open Session

variable {σ : Type}

namespace Machine

variable {m k : Machine σ} {s u : Session Empty σ} {frames : List Frame}
  {failure truncated : Failure} {e : Ending} {r q : EStateM.Result Failure (Session Empty σ) Ending}

theorem reaches_of_fatal (hf : failure.isFatal = true) (frames : List Frame)
    (s : Session Empty σ) :
    Reaches (answer (.error failure) frames s) (ended (.error failure s)) := by
  induction frames with
  | nil => exact .of_step_eq (if_pos hf)
  | cons frame frames ih =>
    apply Reaches.step
    rw [show step (answer (.error failure) (frame :: frames) s) = answer (.error failure) frames s
      from fail_of_fatal frame hf]
    exact ih

theorem Reaches.ended_unique (hr : Reaches m (ended r)) (hq : Reaches m (ended q)) : r = q := by
  obtain ⟨i, hi⟩ := hr
  obtain ⟨j, hj⟩ := hq
  exact Machine.ended_unique hi hj

theorem read_ne_ended {found : Token → Session Empty σ → Machine σ}
    (hfound : ∀ t v, found t v ≠ ended r) : read truncated frames s found ≠ ended r := by
  intro h
  rw [read] at h
  split at h
  · cases h
  · cases h
  · exact hfound _ _ h

theorem compile_ne_ended (name t : Token) (steps : List (Step Empty)) :
    compile truncated name steps frames t s ≠ ended r := by
  intro h
  rw [compile] at h
  split at h
  · cases h
  · split at h
    · cases h
    · split at h <;> cases h

theorem skip_ne_ended (t : Token) : skip truncated failure frames t s ≠ ended r := by
  intro h
  rw [skip] at h
  split at h
  · cases h
  · split at h
    · cases h
    · split at h <;> cases h

theorem start_ne_ended (name : String) (b : Behavior Empty) : start name frames s b ≠ ended r := by
  fun_cases start name frames s b with
  | case1 => exact read_ne_ended (by rintro - - ⟨⟩)
  | case2 | case3 | case4 => rintro ⟨⟩

theorem resume_ne_ended (frame : Frame) : resume frames s frame ≠ ended r := by
  cases frame with
  | replay rest =>
    rw [resume]
    fun_cases replay frames s rest <;> rintro ⟨⟩
  | compile truncated name steps => exact read_ne_ended fun t _ => compile_ne_ended name t steps
  | skip truncated failure => exact read_ne_ended fun t _ => skip_ne_ended t

theorem fail_ne_ended (frame : Frame) : fail failure frames s frame ≠ ended r := by
  fun_cases fail failure frames s frame <;> rintro ⟨⟩

theorem conclude_ne_ended (a : Except Failure Unit) : conclude a s ≠ ended (.ok e u) := by
  cases a with
  | ok => rintro ⟨⟩
  | error failure =>
    rw [conclude]
    split
    · rintro ⟨⟩
    · cases print s!"{failure.cause.text}\n" s <;> rintro ⟨⟩

/-- A run ends without a failure only in a turn. -/
theorem exists_turn_of_step (h : step m = ended (.ok e u)) :
    m = ended (.ok e u) ∨ ∃ s, m = turn s := by
  fun_cases step m with
  | case1 s => exact .inr ⟨s, rfl⟩
  | case2 b name frames s => exact absurd h (start_ne_ended name b)
  | case3 a s => exact absurd h (conclude_ne_ended a)
  | case4 frame frames s => exact absurd h (resume_ne_ended frame)
  | case5 failure frame frames s => exact absurd h (fail_ne_ended frame)
  | case6 r => exact .inl h

/-- The input ends in a turn that finds no token. -/
theorem exists_of_takeTurn (hs : s.output.Steady) (h : takeTurn s = ended (.ok .endOfInput u)) :
    ∃ c, s.exiting = false ∧ Source.nextToken s.source = .ok none c ∧
      u = { s with source := c, output := s.output.flushed } := by
  have hflush := flush_of_steady hs
  rcases Bool.eq_false_or_eq_true s.exiting with hexit | hexit
  · rw [takeTurn_of_exiting hflush hexit] at h
    cases h
  · cases hn : Source.nextToken s.source with
    | error failure c =>
      rw [takeTurn_of_read_error hflush hexit (onSource_of_error hn)] at h
      cases h
    | ok token c =>
      cases token with
      | none =>
        rw [takeTurn_of_end hflush hexit (onSource_of_ok hn)] at h
        cases h
        exact ⟨c, hexit, rfl, rfl⟩
      | some t =>
        rw [takeTurn_of_token hflush hexit (onSource_of_ok hn), takeToken] at h
        split at h <;> cases h

theorem reaches_of_truncated {found : Token → Session Empty σ → Machine σ} {c : Source}
    (h : step m = read truncated frames s found) (hcause : truncated.cause = .truncatedDefinition)
    (hn : Source.nextToken s.source = .ok none c) :
    Reaches m (ended (.error truncated { s with source := c })) := by
  apply Reaches.step
  rw [h, read_of_none hn]
  refine reaches_of_fatal ?_ frames _
  rw [Failure.isFatal, hcause]
  rfl

/-- Nothing to read is the end of a turn, and a failure of a definition that has begun. -/
theorem cases_of_end {c : Source} (hm : Reading m) (hproper : m.Proper)
    (hs : m.session.output.Steady) (hn : Source.nextToken m.session.source = .ok none c) :
    (∃ u, step m = ended (.ok .endOfInput u)) ∨
      ∃ failure u, Reaches m (ended (.error failure u)) := by
  cases hm with
  | @turn s hexit =>
    exact .inl ⟨_, takeTurn_of_end (flush_of_steady hs) hexit (onSource_of_ok hn)⟩
  | name => exact .inr ⟨_, _, reaches_of_truncated rfl rfl hn⟩
  | compile | skip =>
    cases hproper with
    | answer _ _ hframes =>
      have hframe := hframes _ List.mem_cons_self
      cases hframe
      exact .inr ⟨_, _, reaches_of_truncated rfl ‹_› hn⟩

end Machine

end Forth
