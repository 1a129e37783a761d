import Forth.Proofs.Primitive.Locality
import Forth.Proofs.Run.Trace
import Forth.Proofs.Session.Compilation

/-! # Programs on a deeper stack

A program of words that work on their operands alone can be run on top of other
values. If no word finds too few operands and none divides by zero, then it does
the same there, and step by step the values below are where they were.
-/

namespace Forth

open Session

variable {σ : Type}

namespace Behavior

/-- Every primitive that is performed finds its operands. -/
def Supplied (b : Behavior Empty) (name : String) (s : Session Empty σ) : Prop :=
  ∀ p word v, b.Performs name s p word v → p.Supplied v.stack

section Invoke

variable {b : Behavior Empty} {name word : String} {p : Primitive} {s t v : Session Empty σ}
  {step : Step Empty} {rest : List (Step Empty)}

theorem Supplied.first (h : Supplied (.compiled (step :: rest)) name s) (hexit : s.exiting = false) :
    Supplied step.1 step.2 s :=
  fun p word v hv => h p word v (.first hexit hv)

theorem Supplied.later (h : Supplied (.compiled (step :: rest)) name s) (hexit : s.exiting = false)
    (hok : invoke .none step.1 step.2 s = .ok () t) : Supplied (.compiled rest) name t :=
  fun p word v hv => h p word v (.later hexit hok hv)

theorem supplied_primitive (h : p.Supplied s.stack) : (primitive p).Supplied name s := by
  rintro q word v ⟨⟩
  exact h

theorem supplied_nil : (compiled []).Supplied name s := by
  rintro p word v ⟨⟩

theorem supplied_of_exiting {steps : List (Step Empty)} (hexit : s.exiting = true) :
    (compiled steps).Supplied name s := by
  intro p word v h
  cases h with
  | first h | later h =>
    rw [hexit] at h
    cases h

theorem supplied_cons (h : step.1.Supplied step.2 s) (hok : invoke .none step.1 step.2 s = .ok () t)
    (hrest : (compiled rest).Supplied name t) : (compiled (step :: rest)).Supplied name s := by
  intro p word v hv
  cases hv with
  | first _ hv => exact h p word v hv
  | later _ hok' hv =>
    rw [hok] at hok'
    cases hok'
    exact hrest p word v hv

theorem invoke_above (hb : b.BuiltFrom Primitive.IsLocal) (hs : b.Supplied name s) (below : Stack) :
    invoke .none b name (s.above below) = (invoke .none b name s).mapState (·.above below) := by
  induction b using Behavior.steps_induction generalizing name s with
  | primitive p =>
    cases hb with
    | primitive hp => exact Primitive.run_above hp (hs p name s (.primitive p name s)) _ name below
  | literal | nil => rfl
  | cons step rest ih ihr =>
    obtain ⟨hstep, hrest⟩ := hb.of_cons
    simp only [invoke, invokeWith_cons]
    cases hexit : s.exiting with
    | true =>
      rw [replayStep_of_exiting hexit, replayStep_of_exiting (s := s.above below) hexit]
      rfl
    | false =>
      rw [replayStep_of_not_exiting hexit, replayStep_of_not_exiting (s := s.above below) hexit]
      exact bind_mapState (ih hstep (hs.first hexit)) fun _ t hok =>
        ihr hrest (hs.later hexit hok)

/-- The same primitives are performed, each on top of the same values. -/
theorem performs_above_iff (hb : b.BuiltFrom Primitive.IsLocal) (hs : b.Supplied name s)
    (below : Stack) :
    b.Performs name (s.above below) p word v ↔
      ∃ u, b.Performs name s p word u ∧ v = u.above below := by
  induction b using Behavior.steps_induction generalizing name s with
  | primitive q =>
    constructor
    · rintro ⟨⟩
      exact ⟨s, .primitive .., rfl⟩
    · rintro ⟨u, ⟨⟩, rfl⟩
      exact .primitive ..
  | literal | nil =>
    constructor
    · rintro ⟨⟩
    · rintro ⟨u, ⟨⟩, -⟩
  | cons step rest ih ihr =>
    obtain ⟨hstep, hrest⟩ := hb.of_cons
    constructor
    · intro h
      cases h with
      | first hexit hv =>
        obtain ⟨u, hu, rfl⟩ := (ih hstep (hs.first hexit)).mp hv
        exact ⟨u, .first hexit hu, rfl⟩
      | later hexit hok hv =>
        rw [invoke_above hstep (hs.first hexit)] at hok
        obtain ⟨t, ht, rfl⟩ := EStateM.Result.exists_of_mapState_ok hok
        obtain ⟨u, hu, rfl⟩ := (ihr hrest (hs.later hexit ht)).mp hv
        exact ⟨u, .later hexit ht hu, rfl⟩
    · rintro ⟨u, h, rfl⟩
      cases h with
      | first hexit hu => exact .first hexit ((ih hstep (hs.first hexit)).mpr ⟨u, hu, rfl⟩)
      | @later _ _ _ _ _ _ t _ hexit hok hu =>
        have hdeeper := invoke_above hstep (hs.first hexit) below
        rw [hok] at hdeeper
        exact .later hexit hdeeper ((ihr hrest (hs.later hexit hok)).mpr ⟨u, hu, rfl⟩)

end Invoke

end Behavior

namespace Session

/-- The run of the first session performs the primitive in the second one. -/
def Performs (s : Session Empty σ) (p : Primitive) (word : String) (v : Session Empty σ) : Prop :=
  ∃ t w, Evaluates s t w ∧ t.Performs w p word v

/-- What the run of the session evaluates are words that work on their operands alone, and every
primitive finds its operands on the stack. -/
structure SelfSupplied (s : Session Empty σ) : Prop where
  words : ∀ t w, Evaluates s t w →
    ∃ word, w.dictionary.resolve t = some word ∧ word.behavior.BuiltFrom Primitive.IsLocal
  supplied : ∀ p word v, s.Performs p word v → p.Supplied v.stack

end Session

section Run

variable {s w x : Session Empty σ} {t : Token} {below : Stack}

theorem Session.SelfSupplied.later (hs : s.SelfSupplied) (hturn : Turn s t w)
    (hok : evaluate .none t w = .ok () x) : x.SelfSupplied where
  words u y h := hs.words u y (.later hturn hok h)
  supplied p word v := by
    rintro ⟨u, y, h, hv⟩
    exact hs.supplied p word v ⟨u, y, .later hturn hok h, hv⟩

theorem Session.SelfSupplied.of_end (h : ∀ t w, ¬Turn s t w) : s.SelfSupplied := by
  have hnone : ∀ t w, ¬Evaluates s t w := by
    rintro t w (hturn | ⟨hturn, -, -⟩)
    · exact h _ _ hturn
    · exact h _ _ hturn
  exact ⟨fun t w ht => absurd ht (hnone t w), fun p word v ⟨t, w, ht, _⟩ => absurd ht (hnone t w)⟩

theorem Session.SelfSupplied.of_turn {word : Word (Behavior Empty)} (hturn : Turn s t w)
    (hword : w.dictionary.resolve t = some word) (hlocal : word.behavior.BuiltFrom Primitive.IsLocal)
    (hsupplied : word.behavior.Supplied word.name { w with current := some t.location })
    (hok : evaluate .none t w = .ok () x) (hx : x.SelfSupplied) : s.SelfSupplied where
  words u y h := by
    cases h with
    | now h =>
      obtain ⟨rfl, rfl⟩ := hturn.unique h
      exact ⟨word, hword, hlocal⟩
    | later h hok' hy =>
      obtain ⟨rfl, rfl⟩ := hturn.unique h
      rw [hok] at hok'
      cases hok'
      exact hx.words u y hy
  supplied p name v := by
    rintro ⟨u, y, h, hv⟩
    cases h with
    | now h =>
      obtain ⟨rfl, rfl⟩ := hturn.unique h
      obtain ⟨word', hword', hv⟩ := hv
      rw [hword] at hword'
      cases hword'
      exact hsupplied p name v hv
    | later h hok' hy =>
      obtain ⟨rfl, rfl⟩ := hturn.unique h
      rw [hok] at hok'
      cases hok'
      exact hx.supplied p name v ⟨u, y, hy, hv⟩

theorem attempt_mapState {κ σ α : Type} {f : Session κ σ → Session κ σ} {m : SessionM κ σ α}
    {s : Session κ σ} (h : m (f s) = (m s).mapState f) :
    attempt m (f s) = (attempt m s).mapState f := by
  rw [attempt, attempt, h]
  cases m s with
  | ok a t => rfl
  | error failure t => cases hf : failure.isFatal <;> simp [hf]

/-- A token of the run refers to a word that works on its operands, and finds them. -/
theorem Session.SelfSupplied.exists_word (hs : s.SelfSupplied) (h : Evaluates s t w) :
    ∃ word, w.dictionary.resolve t = some word ∧ word.behavior.BuiltFrom Primitive.IsLocal ∧
      word.behavior.Supplied word.name { w with current := some t.location } := by
  obtain ⟨word, hword, hlocal⟩ := hs.words t w h
  exact ⟨word, hword, hlocal, fun p name v hv => hs.supplied p name v ⟨t, w, h, word, hword, hv⟩⟩

theorem evaluate_above (hs : s.SelfSupplied) (h : Evaluates s t w) (below : Stack) :
    evaluate .none t (w.above below) = (evaluate .none t w).mapState (·.above below) := by
  obtain ⟨word, hword, hlocal, hsupplied⟩ := hs.exists_word h
  have hrun : runToken .none t (w.above below) =
      (runToken .none t w).mapState (·.above below) := by
    rw [runToken_of_resolve hword, runToken_of_resolve (s := w.above below) hword]
    exact Behavior.invoke_above hlocal hsupplied below
  refine bind_mapState (attempt_mapState hrun) fun answer v _ => ?_
  cases answer with
  | ok _ => rfl
  | error failure => exact onOutput_above below v _

theorem turn_above_iff {v : Session Empty σ} :
    Turn (s.above below) t v ↔ ∃ w, Turn s t w ∧ v = w.above below := by
  constructor
  · rintro ⟨y, hflush, hexit, hread⟩
    rw [flush, onOutput_above] at hflush
    obtain ⟨x, hx, rfl⟩ := EStateM.Result.exists_of_mapState_ok hflush
    rw [nextToken, onSource_above] at hread
    obtain ⟨w, hw, rfl⟩ := EStateM.Result.exists_of_mapState_ok hread
    exact ⟨w, ⟨x, hx, hexit, hw⟩, rfl⟩
  · rintro ⟨w, ⟨y, hflush, hexit, hread⟩, rfl⟩
    refine ⟨y.above below, ?_, hexit, ?_⟩
    · rw [flush, onOutput_above]
      exact congrArg (EStateM.Result.mapState (·.above below)) hflush
    · rw [nextToken, onSource_above]
      exact congrArg (EStateM.Result.mapState (·.above below)) hread

theorem evaluates_above_iff (hs : s.SelfSupplied) {v : Session Empty σ} :
    Evaluates (s.above below) t v ↔ ∃ w, Evaluates s t w ∧ v = w.above below := by
  constructor
  · intro h
    generalize hdeeper : s.above below = deeper at h
    induction h generalizing s with
    | now hturn =>
      subst hdeeper
      obtain ⟨w, hw, rfl⟩ := turn_above_iff.mp hturn
      exact ⟨w, .now hw, rfl⟩
    | later hturn hok _ ih =>
      subst hdeeper
      obtain ⟨w, hw, rfl⟩ := turn_above_iff.mp hturn
      rw [evaluate_above hs (.now hw)] at hok
      obtain ⟨x, hx, rfl⟩ := EStateM.Result.exists_of_mapState_ok hok
      obtain ⟨y, hy, rfl⟩ := ih (hs.later hw hx) rfl
      exact ⟨y, .later hw hx hy, rfl⟩
  · rintro ⟨w, h, rfl⟩
    induction h with
    | now hturn => exact .now (turn_above_iff.mpr ⟨_, hturn, rfl⟩)
    | later hturn hok _ ih =>
      have hdeeper := evaluate_above hs (.now hturn) below
      rw [hok] at hdeeper
      exact .later (turn_above_iff.mpr ⟨_, hturn, rfl⟩) hdeeper (ih (hs.later hturn hok))

theorem runWithin_above (hs : s.SelfSupplied) (bound : Nat) :
    runWithin .none bound (s.above below) =
      (runWithin .none bound s).mapState (·.above below) := by
  induction bound generalizing s with
  | zero => rfl
  | succ bound ih =>
    refine bind_mapState (onOutput_above below s _) fun _ v hflush => ?_
    rw [get_bind_apply, get_bind_apply]
    cases hexit : v.exiting with
    | true =>
      have hdeeper : (v.above below).exiting = true := hexit
      rw [hdeeper]
      rfl
    | false =>
      have hdeeper : (v.above below).exiting = false := hexit
      rw [hdeeper]
      refine bind_mapState (onSource_above below v _) fun token w hread => ?_
      cases token with
      | none => rfl
      | some t =>
        have hturn : Turn s t w := ⟨v, hflush, hexit, hread⟩
        exact bind_mapState (evaluate_above hs (.now hturn) below) fun _ x hok =>
          ih (hs.later hturn hok)

theorem performs_above_iff (hs : s.SelfSupplied) {p : Primitive} {word : String}
    {v : Session Empty σ} :
    (s.above below).Performs p word v ↔ ∃ u, s.Performs p word u ∧ v = u.above below := by
  constructor
  · rintro ⟨t, y, hy, w, hw, hv⟩
    obtain ⟨x, hx, rfl⟩ := (evaluates_above_iff hs).mp hy
    obtain ⟨w', hw', hlocal, hsupplied⟩ := hs.exists_word hx
    obtain rfl : w' = w := Option.some.inj (hw'.symm.trans hw)
    obtain ⟨u, hu, rfl⟩ := (Behavior.performs_above_iff hlocal hsupplied below).mp hv
    exact ⟨u, ⟨t, x, hx, w', hw', hu⟩, rfl⟩
  · rintro ⟨u, ⟨t, x, hx, w, hw, hu⟩, rfl⟩
    obtain ⟨w', hw', hlocal, hsupplied⟩ := hs.exists_word hx
    obtain rfl : w' = w := Option.some.inj (hw'.symm.trans hw)
    have hv := (Behavior.performs_above_iff hlocal hsupplied below).mpr ⟨u, hu, rfl⟩
    exact ⟨t, x.above below, (evaluates_above_iff hs).mpr ⟨x, hx, rfl⟩, w', hw', hv⟩

/-- With other values below the stack a program does the same: it ends in the same way and leaves
the same, above those values. Each primitive is performed when it was, above those values. -/
theorem run_of_selfSupplied (hs : s.SelfSupplied) (below : Stack) :
    run .none (s.above below) = (run .none s).mapState (·.above below) ∧
      ∀ p word v, (s.above below).Performs p word v ↔
        ∃ u, s.Performs p word u ∧ v = u.above below :=
  ⟨runWithin_above hs s.source.bound, fun _ _ _ => performs_above_iff hs⟩

/-- Here the end is asked for inside of a word, in front of two words for which there are too few
values. -/
theorem run_of_selfSupplied_halting :
    let square : Word (Behavior Empty) :=
      { name := "square", kind := .scripted,
        behavior := .compiled [(.primitive .dup, "dup"), (.primitive .mult, "*")] }
    let halt : Word (Behavior Empty) :=
      { name := "halt", kind := .scripted,
        behavior := .compiled
          [(square.behavior, "square"), (.primitive .dot, "."), (.primitive .bye, "bye"),
            (.primitive .plus, "+")] }
    let s : Session Empty Unit :=
      { dictionary := (Dictionary.empty.definePrimitives.define square).define halt,
        source := .ofText "" "3 halt drop", hostState := () }
    let below : Stack := [.int 7, .int 8]
    s.SelfSupplied ∧ run .none (s.above below) = (run .none s).mapState (·.above below) ∧
      ∀ p word v, (s.above below).Performs p word v ↔
        ∃ u, s.Performs p word u ∧ v = u.above below := by
  intro square halt s below
  have hsquare : square.behavior.BuiltFrom Primitive.IsLocal :=
    .cons (.primitive (by decide)) (.cons (.primitive (by decide)) .nil)
  have hhalt : halt.behavior.BuiltFrom Primitive.IsLocal :=
    .cons hsquare (.cons (.primitive (by decide)) (.cons (.primitive (by decide))
      (.cons (.primitive (by decide)) .nil)))
  -- the run evaluates the number and `halt`
  let three : Token := { text := "3", location := .start "" }
  let token : Token := { text := "halt", location := { path := "", column := 3 } }
  let behindThree := (Source.nextToken s.source).state
  let behindHalt := (Source.nextToken behindThree).state
  let first : Session Empty Unit := { s with output := { flushes := 1 }, source := behindThree }
  let middle := { first with stack := [.int 3], current := some three.location }
  let second := { middle with output := { flushes := 2 }, source := behindHalt }
  have hfirst : Turn s three first :=
    ⟨{ s with output := { flushes := 1 } }, rfl, rfl,
      onSource_of_ok (eq_ok_of_answer (by decide +kernel))⟩
  have hsecond : Turn middle token second :=
    ⟨{ middle with output := { flushes := 2 } }, rfl, rfl,
      onSource_of_ok (eq_ok_of_answer (by decide +kernel))⟩
  have hthree : s.dictionary.resolve three = some (three.literalWord (.int 3)) := by
    have hnone : s.dictionary.find? "3" = none := Option.isNone_iff_eq_none.mp (by decide +kernel)
    have hvalue : Value.ofText? "3" = some (.int 3) := by decide +kernel
    rw [Dictionary.resolve, hnone, hvalue]
    rfl
  have hsupplied :
      halt.behavior.Supplied halt.name { second with current := some token.location } := by
    open Behavior in
    refine supplied_cons (t := { second with stack := [.int 9], current := some token.location })
      ?_ rfl ?_
    · exact supplied_cons (supplied_primitive (.of_ne (by decide) (by decide))) rfl
        (supplied_cons (supplied_primitive (.of_ne (by decide) (by decide))) rfl supplied_nil)
    · exact supplied_cons (supplied_primitive (.of_ne (by decide) (by decide))) rfl
        (supplied_cons (supplied_primitive (.of_ne (by decide) (by decide))) rfl
          (supplied_of_exiting rfl))
  have hend : ∀ t w, ¬Turn (evaluate .none token second).state t w := by
    rintro t w ⟨v, hflush, hexit, -⟩
    obtain ⟨o, -, rfl⟩ := exists_of_onOutput_ok hflush
    have hexiting : (evaluate .none token second).state.exiting = true := by decide +kernel
    exact Bool.false_ne_true (hexit.symm.trans hexiting)
  have hmiddle : middle.SelfSupplied :=
    .of_turn hsecond (Dictionary.resolve_of_find? (Dictionary.find?_define_self _ halt)) hhalt
      hsupplied (eq_ok_of_answer (by decide +kernel)) (.of_end hend)
  have hs : s.SelfSupplied := by
    refine .of_turn hfirst hthree (.literal _) ?_
      (evaluate_of_selfContained (s := first) hthree (.literal _))
      hmiddle
    rintro p word v ⟨⟩
  exact ⟨hs, run_of_selfSupplied hs below⟩

end Run

end Forth
