import Forth.Proofs.Machine.Ending
import Forth.Proofs.Machine.Passing
import Forth.Proofs.Session.Limit

/-! # Two runs of which one has a limited output

The two machines are in the same state, step by step, until a write goes beyond
the limit. From that step on the second machine passes on the failure of the
write, and its session does not change any more.
-/

namespace Forth

open Session

variable {σ : Type}

namespace Machine

/-- The machine does nothing but to pass on that a write failed, which left this session. -/
inductive Stopped (u : Session Empty σ) : Machine σ → Prop
  | failing (frames : List Frame) : Stopped u (answer (.error Output.closed) frames u)
  | ended : Stopped u (ended (.error Output.closed u))

section Stopped

variable {m : Machine σ} {u : Session Empty σ}

theorem Stopped.step (h : Stopped u m) : Stopped u (step m) := by
  cases h with
  | ended => exact .ended
  | failing frames =>
    cases frames with
    | nil => exact .ended
    | cons frame frames =>
      have hfail : Machine.step (answer (.error Output.closed) (frame :: frames) u) =
          answer (.error Output.closed) frames u := fail_of_fatal frame rfl
      rw [hfail]
      exact .failing frames

theorem Stopped.iterate (h : Stopped u m) (n : Nat) : Stopped u (Machine.step^[n] m) := by
  induction n with
  | zero => exact h
  | succ n ih =>
    rw [Function.iterate_succ_apply']
    exact ih.step

theorem Stopped.reaches_ended (h : Stopped u m) : Reaches m (.ended (.error Output.closed u)) := by
  cases h with
  | ended => exact .refl _
  | failing frames => exact reaches_of_fatal rfl frames u

end Stopped

/-- The second machine is the first one with an output that takes `total` bytes, or it is past the
write that goes beyond them. -/
inductive Limited (total : Nat) : Machine σ → Machine σ → Prop
  | fits {m : Machine σ} : m.session.Fits total → Limited total m (m.map (upTo total))
  | cut {m k : Machine σ} {u : Session Empty σ} :
      m.session.output.room = none → total < m.session.written.size → Stopped u k →
      u.written = m.session.written.extract 0 total → Limited total m k

section Limited

variable {total : Nat} {s : Session Empty σ} {frames : List Frame}

theorem limited_of_passesOn {g : Session Empty σ → Machine σ}
    (hg : ∀ o, PassesOn (withOutput o) g) (hs : s.Fits total) :
    Limited total (g s) (g (s.upTo total)) := by
  have hsession (s : Session Empty σ) (o : Output) :
      (g (s.withOutput o)).session = (g s).session.withOutput o := by
    rw [hg o s, session_map]
  have houtput : (g s).session.output = s.output :=
    output_of_withOutput (g := fun s => (g s).session) hsession s
  have hsame : g (s.upTo total) = (g s).map (upTo total) := by
    refine (hg (s.output.upTo total) s).trans (map_congr ?_)
    rw [withOutput, upTo, houtput]
  rw [hsame]
  exact .fits (hs.of_output_eq houtput)

theorem limited_answering {r q : EStateM.Result Failure (Session Empty σ) Unit}
    (h : Session.Limited total r q) : Limited total (answering frames r) (answering frames q) := by
  cases h with
  | fits h =>
    rw [answering_mapState]
    exact .fits h
  | cut hroom hlt hu => exact .cut hroom hlt (.failing frames) hu

theorem limited_evaluated {r q : EStateM.Result Failure (Session Empty σ) Unit}
    (h : Session.Limited total r q) : Limited total (evaluated r) (evaluated q) := by
  cases h with
  | fits h => cases r with
    | ok _ t => exact .fits (m := turn t) h
    | error failure t => exact .fits (m := .ended (.error failure t)) h
  | cut hroom hlt hu => cases r with
    | ok _ t | error _ t => exact .cut hroom hlt .ended hu

theorem inert_withOutput (o : Output) :
    Session.Inert (withOutput o : Session Empty σ → Session Empty σ) :=
  ⟨fun _ => rfl, fun _ => rfl, fun _ _ => rfl, fun _ _ => rfl⟩

theorem limited_takeTurn (hs : s.Fits total) :
    Limited total (takeTurn s) (takeTurn (s.upTo total)) := by
  have ht := fits_flush hs
  have hflush := flush_upTo s total
  cases hf : flush s with
  | error failure t =>
    rw [hf] at ht hflush
    rw [takeTurn_of_flush_error hf, takeTurn_of_flush_error hflush]
    exact .fits (m := .ended (.error failure t)) ht
  | ok _ t =>
    rw [hf] at ht hflush
    cases hexit : t.exiting with
    | true =>
      rw [takeTurn_of_exiting hf hexit, takeTurn_of_exiting hflush hexit]
      exact .fits (m := .ended (.ok .terminated t)) ht
    | false =>
      have hu : (nextToken t).state.Fits total := fits_nextToken ht
      have hread := nextToken_upTo t total
      cases hn : nextToken t with
      | error failure u =>
        rw [hn] at hu hread
        rw [takeTurn_of_read_error hf hexit hn, takeTurn_of_read_error hflush hexit hread]
        exact .fits (m := .ended (.error failure u)) hu
      | ok token u =>
        rw [hn] at hu hread
        cases token with
        | none =>
          rw [takeTurn_of_end hf hexit hn, takeTurn_of_end hflush hexit hread]
          exact .fits (m := .ended (.ok .endOfInput u)) hu
        | some t =>
          rw [takeTurn_of_token hf hexit hn, takeTurn_of_token hflush hexit hread]
          exact limited_of_passesOn (fun o => passesOn_takeToken (inert_withOutput o) t) hu

theorem limited_conclude (a : Except Failure Unit) (hs : s.Fits total) :
    Limited total (conclude a s) (conclude a (s.upTo total)) := by
  cases a with
  | ok => exact .fits (m := turn s) hs
  | error failure =>
    rw [conclude, conclude]
    split
    · exact .fits (m := .ended (.error failure s)) hs
    · exact limited_evaluated (limited_print hs _)

theorem limited_start (name : String) (frames : List Frame) (b : Behavior Empty)
    (hs : s.Fits total) :
    Limited total (start name frames s b) (start name frames (s.upTo total) b) := by
  cases b with
  | primitive p =>
    by_cases hp : p = .colon
    · subst hp
      have hcolon (o : Output) : PassesOn (withOutput o) fun s : Session Empty σ =>
          start name frames s (.primitive .colon) := by
        intro s
        exact passesOn_read (commutes_onSource o _) (fun _ _ => rfl) s
      exact limited_of_passesOn hcolon hs
    · rw [start_primitive hp, start_primitive hp]
      exact limited_answering (limited_run hp (pure ()) name hs)
  | literal v =>
    exact .fits (m := answer (.ok ()) frames { s with stack := v :: s.stack })
      ⟨hs.unlimited, hs.size_le⟩
  | compiled steps => exact .fits (m := answer (.ok ()) (.replay steps :: frames) s) hs
  | host k => nomatch k

theorem limited_resume (frames : List Frame) (frame : Frame) (hs : s.Fits total) :
    Limited total (resume frames s frame) (resume frames (s.upTo total) frame) := by
  have hread (o : Output) : Commutes (withOutput o) (nextToken : SessionM Empty σ (Option Token)) :=
    commutes_onSource o _
  cases frame with
  | replay rest =>
    exact limited_of_passesOn (fun o => passesOn_replay (inert_withOutput o) frames rest) hs
  | compile truncated name steps =>
    refine limited_of_passesOn (fun o => passesOn_read (hread o) fun t => ?_) hs
    exact passesOn_compile (inert_withOutput o) truncated name steps frames t
  | skip truncated failure =>
    refine limited_of_passesOn (fun o => passesOn_read (hread o) fun t => ?_) hs
    exact passesOn_skip (inert_withOutput o) truncated failure frames t

theorem limited_step {m : Machine σ} (hm : m.session.Fits total) :
    Limited total (step m) (step (m.map (upTo total))) := by
  cases m with
  | turn s => exact limited_takeTurn hm
  | invoke b name frames s => exact limited_start name frames b hm
  | ended r => exact .fits (m := .ended r) hm
  | answer a frames s =>
    cases frames with
    | nil => exact limited_conclude a hm
    | cons frame frames =>
      cases a with
      | ok => exact limited_resume frames frame hm
      | error failure =>
        exact limited_of_passesOn (fun o => passesOn_fail _ failure frames frame) hm

end Limited

theorem grows_steps : Session.Steps (Grows : Session Empty σ → Session Empty σ → Prop) where
  refl _ := .of_output_eq rfl
  trans h k := h.trans k
  nextToken s := .of_output_eq (output_of_commutes (fun o => commutes_onSource o _) s)
  flush s := by
    intro hs
    rw [flush, state_onOutput, Output.state_flush]
    exact ⟨hs, .empty, ByteArray.append_empty.symm⟩
  print text s := .print text s
  place _ _ := .of_output_eq rfl
  push _ _ := .of_output_eq rfl
  install _ _ _ _ := .of_output_eq rfl

theorem grows_step (m : Machine σ) : m.session.Grows (step m).session :=
  session_step grows_steps m fun _ name _ s _ hp => .run hp (pure ()) name s

theorem grows_iterate (m : Machine σ) {i j : Nat} (hij : i ≤ j) :
    (step^[i] m).session.Grows (step^[j] m).session := by
  induction hij with
  | refl => exact .of_output_eq rfl
  | @step j _ ih =>
    rw [Function.iterate_succ_apply']
    exact ih.trans (grows_step _)

namespace Limited

variable {total : Nat} {m k : Machine σ}

theorem step (h : Limited total m k) : Limited total (step m) (step k) := by
  cases h with
  | fits h => exact limited_step h
  | cut hroom hlt hstopped hu =>
    obtain ⟨hunlimited, bytes, hbytes⟩ := grows_step m hroom
    refine .cut hunlimited ?_ hstopped.step ?_
    · rw [hbytes, ByteArray.size_append]
      omega
    · rw [hu, hbytes, ByteArray.extract_append_of_le hlt.le]

theorem iterate (h : Limited total m k) (n : Nat) :
    Limited total (Machine.step^[n] m) (Machine.step^[n] k) := by
  induction n with
  | zero => exact h
  | succ n ih =>
    rw [Function.iterate_succ_apply', Function.iterate_succ_apply']
    exact ih.step

theorem unlimited (h : Limited total m k) : m.session.output.room = none := by
  cases h with
  | fits h => exact h.unlimited
  | cut hroom => exact hroom

theorem eq_map (h : Limited total m k) (hle : m.session.written.size ≤ total) :
    k = m.map (upTo total) := by
  cases h with
  | fits => rfl
  | cut _ hlt => exact absurd hle (Nat.not_le.mpr hlt)

theorem exists_stopped (h : Limited total m k) (hlt : total < m.session.written.size) :
    ∃ u, Stopped u k ∧ u.written = m.session.written.extract 0 total := by
  cases h with
  | fits h => exact absurd h.size_le (Nat.not_le.mpr hlt)
  | cut _ _ hstopped hu => exact ⟨_, hstopped, hu⟩

end Limited

end Machine

end Forth
