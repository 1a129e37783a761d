import Forth.Proofs.Machine.Limit
import Forth.Proofs.Run.Containment
import Mathlib.Order.Nat

/-! # Runs whose output takes a limited number of bytes

A run writes some bytes if its output takes everything. With room for all of
them it is the same run. With less room it fails where the room ends: what is
written is what fits, and behind the write that fails nothing is done.
-/

namespace Forth

open Session

variable {σ : Type}

/-- The output has room for so many bytes more. The write that goes beyond is cut, and fails. -/
def Session.withRoom (room : Nat) (s : Session Empty σ) : Session Empty σ :=
  { s with output := { s.output with room := some room } }

/-- A run of the source fails in its step `n`, with the write that goes beyond the room. The bytes are
those that it writes if its output takes everything, and `u` is the session that it leaves. -/
structure FailsInWriting (s : Session Empty σ) (source : Source) (room : Nat) (bytes : ByteArray)
    (n : Nat) (u : Session Empty σ) : Prop where
  result : runSource .none source (s.withRoom room) =
    .error Output.closed { u with source := s.source, exiting := false }
  fatal : Output.closed.isFatal = true
  written : u.output.written = s.output.written ++ bytes.extract 0 room
  /-- Until then nothing tells the run from the one whose output takes everything. -/
  before : ∀ i < n, Machine.step^[i] (.turn ((s.withRoom room).entering source)) =
    (Machine.step^[i] (.turn (s.entering source))).map (upTo (s.output.written.size + room))
  /-- From then on nothing is read and nothing is invoked. -/
  after : ∀ i, n ≤ i →
    Machine.Stopped u (Machine.step^[i] (.turn ((s.withRoom room).entering source)))

section Run

variable {s : Session Empty σ} {total : Nat}

theorem withRoom_eq_upTo (s : Session Empty σ) (room : Nat) :
    s.withRoom room = s.upTo (s.written.size + room) := by
  rw [withRoom, upTo, Output.upTo, written, Nat.add_sub_cancel_left]

theorem written_run (hs : s.dictionary.OnlyComments) (hroom : s.output.room = none) :
    ∃ bytes, (run .none s).state.written = s.written ++ bytes := by
  obtain ⟨n, hn⟩ := Machine.reaches_run hs
  obtain ⟨-, h⟩ := Machine.grows_iterate (.turn s) (Nat.zero_le n) hroom
  rw [hn] at h
  exact h

theorem run_upTo_of_le (hs : s.dictionary.OnlyComments) (hfits : s.Fits total)
    (hle : (run .none s).state.written.size ≤ total) :
    run .none (s.upTo total) = (run .none s).mapState (upTo total) := by
  obtain ⟨n, hn⟩ := Machine.reaches_run hs
  have hlimited : Machine.Limited total (.turn s) (.turn (s.upTo total)) :=
    .fits (m := .turn s) hfits
  have hended := hlimited.iterate n
  rw [hn] at hended
  have hsame := hended.eq_map hle
  exact (Machine.reaches_run (s := s.upTo total) hs).ended_unique ⟨n, hsame⟩

/-- The machine stops in the first step that goes beyond the limit. -/
theorem exists_stopped_of_lt (hs : s.dictionary.OnlyComments) (hfits : s.Fits total)
    (hlt : total < (run .none s).state.written.size) :
    ∃ n u, run .none (s.upTo total) = .error Output.closed u ∧
      u.written = (run .none s).state.written.extract 0 total ∧
      (∀ i < n, Machine.step^[i] (.turn (s.upTo total)) =
        (Machine.step^[i] (.turn s)).map (upTo total)) ∧
      ∀ i, n ≤ i → Machine.Stopped u (Machine.step^[i] (.turn (s.upTo total))) := by
  obtain ⟨last, hlast⟩ := Machine.reaches_run hs
  have hlimited (i : Nat) : Machine.Limited total (Machine.step^[i] (.turn s))
      (Machine.step^[i] (.turn (s.upTo total))) :=
    Machine.Limited.iterate (.fits (m := .turn s) hfits) i
  have hbeyond : ∃ n, total < (Machine.step^[n] (.turn s)).session.written.size :=
    ⟨last, by rw [hlast]; exact hlt⟩
  obtain ⟨u, hstopped, hu⟩ := (hlimited (Nat.find hbeyond)).exists_stopped (Nat.find_spec hbeyond)
  refine ⟨Nat.find hbeyond, u, ?_, ?_, ?_, ?_⟩
  · have hreaches : Machine.Reaches (.turn (s.upTo total)) (.ended (.error Output.closed u)) :=
      .trans ⟨Nat.find hbeyond, rfl⟩ hstopped.reaches_ended
    exact (Machine.reaches_run (s := s.upTo total) hs).ended_unique hreaches
  · have hle : Nat.find hbeyond ≤ last := Nat.find_min' hbeyond (by rw [hlast]; exact hlt)
    obtain ⟨-, more, hmore⟩ := Machine.grows_iterate (.turn s) hle (hlimited _).unlimited
    have hwritten : (run .none s).state.written =
        (Machine.step^[Nat.find hbeyond] (.turn s)).session.written ++ more := by
      rw [← hmore, hlast]
      rfl
    rw [hu, hwritten, ByteArray.extract_append_of_le (Nat.find_spec hbeyond).le]
  · intro i hi
    exact (hlimited i).eq_map (Nat.not_lt.mp (Nat.find_min hbeyond hi))
  · intro i hi
    obtain ⟨j, rfl⟩ := Nat.exists_eq_add_of_le' hi
    rw [Function.iterate_add_apply]
    exact hstopped.iterate j

/-- An output failure ends the run with the bytes that fit, and an output that takes all of them makes
no difference. -/
theorem runSource_withRoom (hs : Attainable s) (hroom : s.output.room = none) (source : Source)
    (room : Nat) :
    ∃ bytes, (runSource .none source s).state.output.written = s.output.written ++ bytes ∧
      (bytes.size ≤ room → runSource .none source (s.withRoom room) =
        (runSource .none source s).mapState (withRoom (room - bytes.size))) ∧
      (room < bytes.size → ∃ n u, FailsInWriting s source room bytes n u) := by
  have hcomments : (s.entering source).dictionary.OnlyComments := hs.proper.onlyComments
  have hfits : (s.entering source).Fits (s.written.size + room) := ⟨hroom, Nat.le_add_right _ _⟩
  have hroomy : (s.withRoom room).entering source =
      (s.entering source).upTo (s.written.size + room) := by
    rw [withRoom_eq_upTo]
    rfl
  obtain ⟨bytes, hbytes⟩ : ∃ bytes, (run .none (s.entering source)).state.written =
      s.written ++ bytes := written_run hcomments hroom
  have hsize : (run .none (s.entering source)).state.written.size = s.written.size + bytes.size := by
    rw [hbytes, ByteArray.size_append]
  refine ⟨bytes, ?_, fun hle => ?_, fun hlt => ?_⟩
  · rw [runSource_eq, EStateM.Result.state_mapState]
    exact hbytes
  · have hleft : s.written.size + room - (run .none (s.entering source)).state.written.size =
        room - bytes.size := by
      rw [hsize, Nat.add_sub_add_left]
    have hrun := run_upTo_of_le hcomments hfits (by rw [hsize]; omega)
    rw [runSource_eq, runSource_eq, hroomy, hrun]
    cases hr : run .none (s.entering source) with
    | ok ending u | error failure u =>
      rw [hr] at hleft
      simp only [EStateM.Result.mapState_ok, EStateM.Result.mapState_error, withRoom, upTo,
        Output.upTo, ← hleft]
      rfl
  · obtain ⟨n, u, hrun, hu, hbefore, hafter⟩ :=
      exists_stopped_of_lt hcomments hfits (by rw [hsize]; omega)
    refine ⟨n, u, ?_, rfl, ?_, ?_, ?_⟩
    · rw [runSource_eq, hroomy, hrun]
      rfl
    · refine hu.trans ?_
      rw [hbytes, ByteArray.extract_append_of_ge (Nat.le_add_right _ _), Nat.add_sub_cancel_left]
      rfl
    · rw [hroomy]
      exact hbefore
    · rw [hroomy]
      exact hafter

/-- The second byte is written in the middle of a replay, where there is room for one. -/
theorem runSource_withRoom_replay :
    let s : Session Empty Unit :=
      { dictionary := Dictionary.empty.definePrimitives, source := .ofText "" "", hostState := () }
    let source := Source.ofText "" ": both . . ; 1 2 both oops"
    Attainable s ∧ s.output.room = none ∧
      (runSource .none source (s.withRoom 1)).answer = .error Output.closed ∧
      ∃ bytes, (runSource .none source s).state.output.written = s.output.written ++ bytes ∧
        (bytes.size ≤ 1 → runSource .none source (s.withRoom 1) =
          (runSource .none source s).mapState (withRoom (1 - bytes.size))) ∧
        (1 < bytes.size → ∃ n u, FailsInWriting s source 1 bytes n u) := by
  intro s source
  have hs : Attainable s := (Reachable.start _ ()).attainable
  exact ⟨hs, rfl, by decide +kernel, runSource_withRoom hs rfl source 1⟩

end Run

end Forth
