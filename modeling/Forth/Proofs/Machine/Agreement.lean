import Forth.Proofs.Definition.Tokens
import Forth.Proofs.Machine.Termination
import Forth.Proofs.Session.Follows

/-! # The machine and the run agree

The comment can have other names, if whoever embeds the language gives it one.
Then the text of a definition no longer tells where its comments are, and still
the machine comes to what the run comes to: it is enough that every immediate
word is the comment.
-/

namespace Forth

open Session

variable {σ : Type}

theorem onlyComments_invariant :
    Invariant (fun s : Session Empty σ => s.dictionary.OnlyComments) := by
  refine .of_reading (P := fun d _ => d.OnlyComments) (fun _ => .rfl) ?_ (fun _ _ h => h)
    (fun _ _ h => h)
  intro s hs
  obtain h | ⟨w, hw, h⟩ := (binds_define .none hs).dictionary_cases
  · exact h ▸ hs
  · exact h ▸ hs.define hw.normal

namespace Machine

/-- The machine comes to the other one. -/
def Reaches (m k : Machine σ) : Prop := ∃ n, step^[n] m = k

namespace Reaches

variable {m k l : Machine σ}

theorem refl (m : Machine σ) : Reaches m m := ⟨0, rfl⟩

theorem step (h : Reaches (step m) k) : Reaches m k := by
  obtain ⟨n, h⟩ := h
  exact ⟨n + 1, h⟩

theorem trans (h : Reaches m k) (hk : Reaches k l) : Reaches m l := by
  obtain ⟨n, rfl⟩ := h
  obtain ⟨j, rfl⟩ := hk
  exact ⟨j + n, Function.iterate_add_apply ..⟩

theorem of_step_eq (h : Machine.step m = k) : Reaches m k := ⟨1, h⟩

theorem onward (h : Reaches m k) : m.session.Onward k.session := by
  obtain ⟨n, rfl⟩ := h
  exact onward_iterate n m

end Reaches

variable {s : Session Empty σ} {w : Word (Behavior Empty)} {t : Token} {frames : List Frame}
  {truncated failure : Failure} {bound : Nat}

theorem step_execute_comment (define : SessionM Empty σ Unit) (hb : w.behavior = .primitive .comment) :
    step (execute t w frames s) =
      answering frames (Word.executeWith define .none t.location w s) := by
  rw [execute, hb, Word.executeWith, hb]
  rfl

theorem isFatal_of_executeWith_comment {define : SessionM Empty σ Unit}
    (hb : w.behavior = .primitive .comment) {u : Session Empty σ}
    (h : Word.executeWith define .none t.location w s = .error failure u) :
    failure.isFatal = true := by
  rw [Word.executeWith, modify_bind_apply, hb] at h
  obtain ⟨reason, rfl⟩ := FailsByIo.run (p := .comment) (by decide) define w.name _ _ _ h
  rfl

section Skip

theorem skipToken_of_unknown (execute : Execute Empty σ) (hw : s.dictionary.resolve t = none) :
    skipToken execute t s = .ok () s := by
  rw [skipToken, get_bind_apply, hw]
  rfl

theorem skipToken_of_normal (execute : Execute Empty σ) (hw : s.dictionary.resolve t = some w)
    (hn : w.immediate = false) : skipToken execute t s = .ok () s := by
  simp only [skipToken, get_bind_apply, hw, hn, Bool.false_eq_true, if_false]
  rfl

/-- What the machine does once a token of a body that is thrown away is dealt with. -/
def skipped (truncated failure : Failure) (frames : List Frame) :
    EStateM.Result Failure (Session Empty σ) Unit → Machine σ
  | .ok () s => answer (.ok ()) (.skip truncated failure :: frames) s
  | .error fatal s => answer (.error fatal) frames s

theorem reaches_skipToken (define : SessionM Empty σ Unit) (hd : s.dictionary.OnlyComments)
    (ht : t.text ≠ endOfDefinition) :
    Reaches (skip truncated failure frames t s)
      (skipped truncated failure frames (skipToken (Word.executeWith define .none) t s)) := by
  cases hw : s.dictionary.resolve t with
  | none =>
    rw [skipToken_of_unknown _ hw]
    simp only [skip, if_neg ht, hw]
    exact .refl _
  | some w =>
    cases hi : w.immediate with
    | false =>
      rw [skipToken_of_normal _ hw hi]
      simp only [skip, if_neg ht, hw, hi, Bool.false_eq_true, if_false]
      exact .refl _
    | true =>
      have hb := hd.behavior_of_immediate hw hi
      simp only [skip, if_neg ht, hw, hi, if_true]
      apply Reaches.step
      rw [skipToken_of_immediate hw hi, step_execute_comment define hb, bind_apply]
      obtain ⟨_, u, he, ha⟩ | ⟨fatal, u, he, hf, ha⟩ | ⟨other, u, he, hf, -⟩ :=
        attempt_cases (Word.executeWith define .none t.location w) s
      · rw [he, ha]
        exact .refl _
      · rw [he, ha]
        exact .of_step_eq (fail_of_fatal (.skip truncated failure) hf)
      · rw [isFatal_of_executeWith_comment hb he] at hf
        cases hf

theorem reaches_skipBody (define : SessionM Empty σ Unit) (hd : s.dictionary.OnlyComments)
    (hb : s.source.unread.length < bound) :
    Reaches (answer (.ok ()) (.skip truncated failure :: frames) s)
      (answering frames
        ((do
          skipBody (Word.executeWith define .none) truncated bound
          throw failure : SessionM Empty σ Unit) s)) := by
  induction bound generalizing s with
  | zero => omega
  | succ bound ih =>
    apply Reaches.step
    change Reaches (read truncated frames s (skip truncated failure frames)) _
    cases hn : Source.nextToken s.source with
    | error fatal u =>
      rw [read_of_error hn, bind_of_error (skipBody_of_error hn)]
      exact .refl _
    | ok token u =>
      cases token with
      | none =>
        rw [read_of_none hn, bind_of_error (skipBody_of_none hn)]
        exact .refl _
      | some t =>
        rw [read_of_token hn]
        by_cases ht : t.text = endOfDefinition
        · rw [skip, if_pos ht, bind_of_ok (skipBody_of_end hn ht)]
          exact .refl _
        · have hlt := Source.length_lt_of_nextToken hn
          have htoken : Reaches (skip truncated failure frames t { s with source := u }) _ :=
            reaches_skipToken define hd ht
          have hle := (Onward.steps.trans (after_skip Onward.steps failure t (Onward.steps.refl _))
            htoken.onward).unread.length_le
          have hv : (skipToken (Word.executeWith define .none) t { s with source := u }).state.Has
              s.dictionary :=
            keeps_skipToken hd t _ rfl
          apply htoken.trans
          rw [bind_apply, skipBody_of_token hn ht, bind_apply]
          cases hskip : skipToken (Word.executeWith define .none) t { s with source := u } with
          | error fatal v => exact .refl _
          | ok _ v =>
            rw [hskip] at hv hle
            have hrest := ih (s := v) (hv ▸ hd)
              (hle.trans_lt (Nat.lt_of_lt_of_le hlt (Nat.le_of_lt_succ hb)))
            rwa [bind_apply] at hrest

end Skip

section Compile

variable {name : Token} {steps : List (Step Empty)}

/-- What the machine does once a token of a body that is compiled is dealt with. -/
def compiled (truncated : Failure) (name : Token) (steps : List (Step Empty)) (frames : List Frame) :
    EStateM.Result Failure (Session Empty σ) (Except Failure (Option (Step Empty))) → Machine σ
  | .ok (.ok step) s => answer (.ok ()) (.compile truncated name (steps ++ step.toList) :: frames) s
  | .ok (.error failure) s => answer (.ok ()) (.skip truncated failure :: frames) s
  | .error fatal s => answer (.error fatal) frames s

theorem reaches_compileToken (define : SessionM Empty σ Unit) (hd : s.dictionary.OnlyComments)
    (ht : t.text ≠ endOfDefinition) :
    Reaches (compile truncated name steps frames t s)
      (compiled truncated name steps frames
        (attempt (compileToken (Word.executeWith define .none) t) s)) := by
  cases hw : s.dictionary.resolve t with
  | none =>
    rw [attempt_of_recoverable (compileToken_of_unknown _ hw) rfl]
    simp only [compile, if_neg ht, hw]
    exact .of_step_eq rfl
  | some w =>
    cases hi : w.immediate with
    | false =>
      rw [attempt_of_ok (compileToken_of_normal _ hw hi)]
      simp only [compile, if_neg ht, hw, hi, Bool.false_eq_true, if_false]
      exact .refl _
    | true =>
      have hb := hd.behavior_of_immediate hw hi
      have htoken : compileToken (Word.executeWith define .none) t s = _ :=
        compileToken_of_immediate hw hi
      simp only [compile, if_neg ht, hw, hi, if_true]
      apply Reaches.step
      rw [step_execute_comment define hb]
      cases he : Word.executeWith define .none t.location w s with
      | ok _ u =>
        rw [attempt_of_ok (htoken.trans (bind_of_ok he)), compiled, Option.toList_none,
          List.append_nil]
        exact .refl _
      | error fatal u =>
        have hf := isFatal_of_executeWith_comment hb he
        rw [attempt_of_fatal (htoken.trans (bind_of_error he)) hf]
        exact .of_step_eq (fail_of_fatal (.compile truncated name steps) hf)

theorem reaches_compileBody (define : SessionM Empty σ Unit) (hd : s.dictionary.OnlyComments)
    (hb : s.source.unread.length < bound) :
    Reaches (answer (.ok ()) (.compile truncated name steps :: frames) s)
      (answering frames
        ((do
          let more ← compileBody (Word.executeWith define .none) truncated bound
          install name.location name.text (steps ++ more) : SessionM Empty σ Unit) s)) := by
  induction bound generalizing s steps with
  | zero => omega
  | succ bound ih =>
    apply Reaches.step
    change Reaches (read truncated frames s (compile truncated name steps frames)) _
    cases hn : Source.nextToken s.source with
    | error fatal u =>
      rw [read_of_error hn, bind_of_error (compileBody_of_error hn)]
      exact .refl _
    | ok token u =>
      cases token with
      | none =>
        rw [read_of_none hn, bind_of_error (compileBody_of_none hn)]
        exact .refl _
      | some t =>
        rw [read_of_token hn]
        by_cases ht : t.text = endOfDefinition
        · rw [compile, if_pos ht, bind_of_ok (compileBody_of_end hn ht), List.append_nil]
          exact .refl _
        · have hlt := Source.length_lt_of_nextToken hn
          have htoken : Reaches (compile truncated name steps frames t { s with source := u }) _ :=
            reaches_compileToken define hd ht
          have hle := (Onward.steps.trans
            (after_compile Onward.steps name steps t (Onward.steps.refl _))
            htoken.onward).unread.length_le
          have hv : (attempt (compileToken (Word.executeWith define .none) t)
              { s with source := u }).state.Has s.dictionary :=
            (keeps_compileToken hd t).attempt _ rfl
          apply htoken.trans
          cases hcompile : attempt (compileToken (Word.executeWith define .none) t)
              { s with source := u } with
          | error fatal v =>
            rw [bind_of_error (compileBody_of_fatal hn ht hcompile)]
            exact .refl _
          | ok found v =>
            rw [hcompile] at hv hle
            cases found with
            | ok step =>
              have hrest : Reaches
                  (answer (.ok ()) (.compile truncated name (steps ++ step.toList) :: frames) v) _ :=
                ih (hv ▸ hd) (hle.trans_lt (Nat.lt_of_lt_of_le hlt (Nat.le_of_lt_succ hb)))
              rw [bind_apply, compileBody_of_step hn ht hcompile, bind_apply]
              rw [bind_apply] at hrest
              cases hbody : compileBody (Word.executeWith define .none) truncated bound v with
              | error fatal x =>
                rw [hbody] at hrest
                exact hrest
              | ok more x =>
                rw [hbody] at hrest
                change Reaches _ (answering frames
                  (install name.location name.text (steps ++ step.toList ++ more) x)) at hrest
                rw [List.append_assoc] at hrest
                exact hrest
            | error failure =>
              have hrest : Reaches (answer (.ok ()) (.skip truncated failure :: frames) v) _ :=
                reaches_skipBody define (hv ▸ hd)
                  (hle.trans_lt (Nat.lt_of_lt_of_le hlt (Nat.le_of_lt_succ hb)))
              rw [bind_apply, compileBody_of_abandoned hn ht hcompile, bind_apply]
              rw [bind_apply] at hrest
              cases hbody : skipBody (Word.executeWith define .none) truncated bound v with
              | error fatal x | ok _ x =>
                rw [hbody] at hrest
                exact hrest

end Compile

/-- The machine comes to the answer of `:`. -/
theorem reaches_define (hd : s.dictionary.OnlyComments) (word : String) (frames : List Frame) :
    Reaches (invoke (.primitive .colon) word frames s) (answering frames (Forth.define .none s)) := by
  apply Reaches.step
  change Reaches (read s.truncated frames s fun name t =>
    answer (.ok ()) (.compile s.truncated name [] :: frames) t) _
  rw [define_eq]
  cases hn : Source.nextToken s.source with
  | error fatal u =>
    have hread : nextToken s = .error fatal { s with source := u } := onSource_of_error hn
    rw [read_of_error hn, bind_of_error hread]
    exact .refl _
  | ok token u =>
    have hread : nextToken s = .ok token { s with source := u } := onSource_of_ok hn
    rw [bind_of_ok hread]
    cases token with
    | none =>
      rw [read_of_none hn]
      exact .refl _
    | some name =>
      rw [read_of_token hn]
      have hlt : u.unread.length < s.source.unread.length + s.source.reserve :=
        Nat.lt_add_right _ (Source.length_lt_of_nextToken hn)
      exact reaches_compileBody (s := { s with source := u }) _ hd hlt

theorem reaches_replay (name : String) (frames : List Frame) {rest : List (Step Empty)}
    (hs : s.dictionary.OnlyComments)
    (hsteps : ∀ step ∈ rest, ∀ (more : List Frame) (t : Session Empty σ),
      t.dictionary.OnlyComments →
      Reaches (invoke step.1 step.2 more t) (answering more (Forth.invoke .none step.1 step.2 t))) :
    Reaches (answer (.ok ()) (.replay rest :: frames) s)
      (answering frames (Forth.invoke .none (.compiled rest) name s)) := by
  induction rest generalizing s with
  | nil => exact .of_step_eq rfl
  | cons first rest ih =>
    obtain ⟨b, word⟩ := first
    cases hexit : s.exiting with
    | true =>
      rw [Behavior.invoke_cons_of_exiting hexit]
      exact .of_step_eq (if_pos hexit)
    | false =>
      have hbegin : Reaches (answer (.ok ()) (.replay ((b, word) :: rest) :: frames) s)
          (invoke b word (.replay rest :: frames) s) :=
        .of_step_eq (if_neg (by simp [hexit]))
      have hfirst := hbegin.trans (hsteps (b, word) List.mem_cons_self (.replay rest :: frames) s hs)
      have ht := onlyComments_invariant.invoke b word s hs
      cases hinvoke : Forth.invoke .none b word s with
      | error failure t =>
        rw [hinvoke] at hfirst
        rw [Behavior.invoke_cons_of_error hexit hinvoke]
        exact hfirst.trans (.of_step_eq rfl)
      | ok _ t =>
        rw [hinvoke] at hfirst ht
        rw [Behavior.invoke_cons_of_ok hexit hinvoke]
        exact hfirst.trans (ih ht fun step hstep => hsteps step (List.mem_cons_of_mem _ hstep))

/-- What is invoked comes to its answer. -/
theorem reaches_invoke (hs : s.dictionary.OnlyComments) (b : Behavior Empty) (name : String)
    (frames : List Frame) :
    Reaches (invoke b name frames s) (answering frames (Forth.invoke .none b name s)) := by
  -- the induction is on the tree of steps
  have hb := Behavior.BuiltFrom.of_no_host b
  induction hb generalizing name frames s with
  | @primitive p _ =>
    by_cases hp : p = .colon
    · subst hp
      exact reaches_define hs name frames
    · have hinvoke : Forth.invoke .none (.primitive p) name s = p.run (pure ()) name s :=
        congrFun (Primitive.run_congr hp (define .none) (pure ()) name) s
      rw [hinvoke]
      cases p with
      | colon => exact absurd rfl hp
      | _ => exact .of_step_eq rfl
  | literal v => exact .of_step_eq rfl
  | @compiled steps _ ih =>
    exact .step (reaches_replay name frames hs fun step hstep more t ht =>
      ih step hstep ht step.2 more)

section Turn

theorem reaches_runToken (t : Token) (hs : s.dictionary.OnlyComments) :
    Reaches (takeToken t s) (answering [] (runToken .none t s)) := by
  rw [takeToken, runToken, get_bind_apply]
  cases s.dictionary.resolve t with
  | none => exact .refl _
  | some w => exact reaches_invoke (s := { s with current := some t.location }) hs w.behavior w.name []

theorem reaches_evaluated (t : Token) (hs : s.dictionary.OnlyComments) :
    Reaches (takeToken t s) (evaluated (evaluate .none t s)) :=
  (reaches_runToken t hs).trans (.of_step_eq (step_runToken t s))

/-- The machine comes to what the run comes to, if there is room for all of it. -/
theorem reaches_runWithin (hs : s.dictionary.OnlyComments) (hb : s.source.unread.length < bound) :
    Reaches (turn s) (ended (runWithin .none bound s)) := by
  induction bound generalizing s with
  | zero => omega
  | succ bound ih =>
    rw [runWithin_succ]
    cases hflush : flush s with
    | error failure v =>
      rw [runTurn_of_flush_error hflush]
      exact .of_step_eq (takeTurn_of_flush_error hflush)
    | ok _ v =>
      cases hexit : v.exiting with
      | true =>
        rw [runTurn_of_exiting hflush hexit]
        exact .of_step_eq (takeTurn_of_exiting hflush hexit)
      | false =>
        cases hread : nextToken v with
        | error failure x =>
          rw [runTurn_of_read_error hflush hexit hread]
          exact .of_step_eq (takeTurn_of_read_error hflush hexit hread)
        | ok token x =>
          cases token with
          | none =>
            rw [runTurn_of_end hflush hexit hread]
            exact .of_step_eq (takeTurn_of_end hflush hexit hread)
          | some t =>
            have hx : x.dictionary.OnlyComments ∧
                x.source.unread.length < s.source.unread.length := by
              obtain ⟨o, -, rfl⟩ := exists_of_onOutput_ok hflush
              obtain ⟨u, hu, rfl⟩ := exists_of_onSource_ok hread
              exact ⟨hs, Source.length_lt_of_nextToken hu⟩
            have hevaluated := reaches_evaluated t hx.1
            have hle := (Onward.steps.trans (after_takeToken Onward.steps t (Onward.steps.refl x))
              hevaluated.onward).unread.length_le
            have hy := onlyComments_invariant.evaluate t x hx.1
            rw [runTurn_of_token hflush hexit hread]
            apply Reaches.step
            rw [show step (turn s) = takeToken t x from takeTurn_of_token hflush hexit hread]
            apply hevaluated.trans
            cases he : evaluate .none t x with
            | error failure y =>
              rw [bind_of_error he]
              exact .refl _
            | ok _ y =>
              rw [he] at hle hy
              rw [bind_of_ok he]
              exact ih hy (hle.trans_lt (Nat.lt_of_lt_of_le hx.2 (Nat.le_of_lt_succ hb)))

theorem reaches_run (hs : s.dictionary.OnlyComments) : Reaches (turn s) (ended (run .none s)) :=
  reaches_runWithin hs (Nat.lt_succ_of_le (Nat.le_add_right _ _))

end Turn

end Machine

end Forth
