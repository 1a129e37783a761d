import Forth.Proofs.Dictionary.Binding
import Forth.Proofs.Session.Context
import Forth.Proofs.Session.Failing

/-! # Compiling preserves meaning

A compiled word does what its tokens would have done if they had been evaluated
one by one. The two ways differ in what they look up and when, and in the places
they report. So they are compared up to the dictionary and the current place,
which nothing in such a body looks at.
-/

namespace Forth

open Session

variable {κ σ α : Type}

/-- Evaluates tokens one by one, until the end of the session is asked for or one fails. -/
def evaluateAll (host : Host κ σ) : List Token → SessionM κ σ Unit
  | [] => return
  | t :: rest => do
    if (← get).exiting then return
    evaluate host t
    evaluateAll host rest

/-- Both end in the same way, and leave the same stack, output, exit flag and source. -/
structure SameEffect (x y : EStateM.Result Failure (Session κ σ) α) : Prop where
  answer : x.answer = y.answer
  stack : x.state.stack = y.state.stack
  output : x.state.output = y.state.output
  exiting : x.state.exiting = y.state.exiting
  source : x.state.source = y.state.source

def Session.withoutContext (s : Session κ σ) : Session κ σ := s.inContext .empty none

theorem ContextFree.withoutContext {m : SessionM κ σ α} (hm : ContextFree m) (s : Session κ σ)
    (d : Dictionary (Behavior κ)) (place : Option Location) :
    (m (s.inContext d place)).mapState withoutContext = (m s).mapState withoutContext := by
  rw [hm d place s]
  cases m s <;> rfl

theorem SameEffect.of_withoutContext {x y : EStateM.Result Failure (Session κ σ) α}
    (h : x.mapState withoutContext = y.mapState withoutContext) : SameEffect x y := by
  have hanswer : x.answer = y.answer := by
    simpa using congrArg EStateM.Result.answer h
  have hstate : x.state.withoutContext = y.state.withoutContext := by
    simpa using congrArg EStateM.Result.state h
  simp only [withoutContext, inContext, Session.mk.injEq] at hstate
  obtain ⟨hstack, -, hsource, houtput, -, hexiting, -⟩ := hstate
  exact ⟨hanswer, hstack, houtput, hexiting, hsource⟩

namespace Behavior

/-- Whatever the dictionary and the place, the behavior does the same. -/
def SelfContained (b : Behavior κ) : Prop :=
  b.BuiltFrom fun p => p ≠ .colon ∧ p ≠ .dotDictionary

theorem SelfContained.of_tokens {d : Dictionary (Behavior κ)} {body : List Token}
    (hb : ∀ t ∈ body, ∃ w, d.resolve t = some w ∧ w.behavior.SelfContained) :
    (compiled (body.filterMap d.stepOf?)).SelfContained := by
  refine .compiled fun step hstep => ?_
  obtain ⟨t, ht, hstep⟩ := List.mem_filterMap.mp hstep
  obtain ⟨w, hw, hc⟩ := hb t ht
  rw [Dictionary.stepOf?_of_resolve hw] at hstep
  cases hstep
  exact hc

end Behavior

section Compile

variable {host : Host κ σ}

theorem compileToken_of_normal (execute : Execute κ σ) {s : Session κ σ} {t : Token}
    {w : Word (Behavior κ)} (hw : s.dictionary.resolve t = some w) (hn : w.immediate = false) :
    compileToken execute t s = .ok (some (w.behavior, w.name)) s := by
  simp only [compileToken, get_bind_apply, hw, hn, Bool.false_eq_true, if_false]
  rfl

theorem compileTokens_of_normal {s : Session κ σ} {body : List Token}
    (hb : ∀ t ∈ body, ∃ w, s.dictionary.resolve t = some w ∧ w.immediate = false) :
    compileTokens host body s = .ok (body.filterMap s.dictionary.stepOf?) s := by
  induction body with
  | nil => rfl
  | cons t rest ih =>
    obtain ⟨w, hw, hn⟩ := hb t List.mem_cons_self
    have hrest := ih fun u hu => hb u (List.mem_cons_of_mem _ hu)
    rw [compileTokens, bind_of_ok (compileToken_of_normal _ hw hn), bind_of_ok hrest,
      List.filterMap_cons_some (Dictionary.stepOf?_of_resolve hw)]
    rfl

theorem runToken_of_resolve {s : Session κ σ} {t : Token} {w : Word (Behavior κ)}
    (hw : s.dictionary.resolve t = some w) :
    runToken host t s =
      w.behavior.invokeWith (define host) host w.name { s with current := some t.location } := by
  simp only [runToken, get_bind_apply, hw]
  rfl

theorem evaluate_of_selfContained {s : Session κ σ} {t : Token} {w : Word (Behavior κ)}
    (hw : s.dictionary.resolve t = some w) (hc : w.behavior.SelfContained) :
    evaluate host t s =
      (w.behavior.invokeWith (define host) host w.name s).mapState
        (·.inContext s.dictionary (some t.location)) := by
  have hrun : runToken host t s =
      (w.behavior.invokeWith (define host) host w.name s).mapState
        (·.inContext s.dictionary (some t.location)) :=
    (runToken_of_resolve hw).trans (ContextFree.invokeWith hc w.name _ _ s)
  rw [evaluate]
  cases hi : w.behavior.invokeWith (define host) host w.name s with
  | ok a u =>
    rw [hi] at hrun
    exact bind_of_ok (attempt_of_ok hrun)
  | error failure u =>
    rw [hi] at hrun
    obtain ⟨reason, rfl⟩ := FailsByIo.invokeWith hc w.name s failure u hi
    exact bind_of_error (attempt_of_fatal hrun rfl)

theorem evaluateAll_withoutContext (d : Dictionary (Behavior κ)) {body : List Token}
    (hb : ∀ t ∈ body, ∃ w, d.resolve t = some w ∧ w.behavior.SelfContained) (name : String)
    (s : Session κ σ) (hs : s.dictionary = d) :
    (evaluateAll host body s).mapState withoutContext =
      ((Behavior.compiled (body.filterMap d.stepOf?)).invokeWith (define host) host name
        s).mapState withoutContext := by
  induction body generalizing s with
  | nil => rfl
  | cons t rest ih =>
    obtain ⟨w, hw, hc⟩ := hb t List.mem_cons_self
    have hrest : ∀ u ∈ rest, ∃ w, d.resolve u = some w ∧ w.behavior.SelfContained := fun u hu =>
      hb u (List.mem_cons_of_mem _ hu)
    have hreplay : ContextFree ((Behavior.compiled (rest.filterMap d.stepOf?)).invokeWith
        (define host) host name : SessionM κ σ Unit) :=
      ContextFree.invokeWith (Behavior.SelfContained.of_tokens hrest) name
    rw [List.filterMap_cons_some (Dictionary.stepOf?_of_resolve hw), Behavior.invokeWith_cons]
    change (Behavior.replayStep (evaluate host t) (evaluateAll host rest) s).mapState _ = _
    cases hexit : s.exiting with
    | true => rw [Behavior.replayStep_of_exiting hexit, Behavior.replayStep_of_exiting hexit]
    | false =>
      rw [Behavior.replayStep_of_not_exiting hexit, Behavior.replayStep_of_not_exiting hexit,
        bind_apply, bind_apply, evaluate_of_selfContained (hs ▸ hw) hc, hs]
      cases w.behavior.invokeWith (define host) host w.name s with
      | ok a u =>
        -- the rest meets the same session up to what it does not look at
        calc (evaluateAll host rest (u.inContext d (some t.location))).mapState withoutContext
            = ((Behavior.compiled (rest.filterMap d.stepOf?)).invokeWith (define host) host name
                (u.inContext d (some t.location))).mapState withoutContext := ih hrest _ rfl
          _ = ((Behavior.compiled (rest.filterMap d.stepOf?)).invokeWith (define host) host name
                u).mapState withoutContext :=
              hreplay.withoutContext u d (some t.location)
      | error failure u => rfl

end Compile

/-- A word compiled from tokens does what the tokens do, one after the other. -/
theorem execute_defineFromTokens (host : Host κ σ) (s : Session κ σ) (place location : Location)
    (name : String) (body : List Token)
    (hb : ∀ t ∈ body, ∃ w, s.dictionary.resolve t = some w ∧ w.immediate = false ∧
      w.behavior.SelfContained) :
    ∃ compiled w, defineFromTokens host place name body s = .ok () compiled ∧
      compiled.dictionary.find? name = some w ∧
      SameEffect (execute host location w compiled) (evaluateAll host body s) ∧
      ((evaluateAll host body s).answer = .ok () ∨
        ∃ reason, (evaluateAll host body s).answer = .error { cause := .io reason }) := by
  have hnormal : ∀ t ∈ body, ∃ w, s.dictionary.resolve t = some w ∧ w.immediate = false :=
    fun t ht => (hb t ht).imp fun w hw => ⟨hw.1, hw.2.1⟩
  have hself : ∀ t ∈ body, ∃ w, s.dictionary.resolve t = some w ∧ w.behavior.SelfContained :=
    fun t ht => (hb t ht).imp fun w hw => ⟨hw.1, hw.2.2⟩
  let steps := body.filterMap s.dictionary.stepOf?
  let w : Word (Behavior κ) :=
    { name, location := some place, kind := .scripted, description := "User defined word.",
      behavior := .compiled steps }
  have hsteps : w.behavior.SelfContained := Behavior.SelfContained.of_tokens hself
  have heffect : SameEffect (execute host location w { s with dictionary := s.dictionary.define w })
      (evaluateAll host body s) := by
    refine .of_withoutContext ?_
    rw [evaluateAll_withoutContext s.dictionary hself name s rfl]
    exact (ContextFree.invokeWith hsteps name).withoutContext s _ (some location)
  refine ⟨{ s with dictionary := s.dictionary.define w }, w, ?_, ?_, heffect, ?_⟩
  · exact bind_of_ok (compileTokens_of_normal hnormal)
  · exact Dictionary.find?_define_self s.dictionary w
  · rw [← heffect.answer]
    cases h : execute host location w { s with dictionary := s.dictionary.define w } with
    | ok a t => exact .inl rfl
    | error failure t =>
      obtain ⟨reason, rfl⟩ := FailsByIo.invokeWith hsteps name _ failure t h
      exact .inr ⟨reason, rfl⟩

/-- A body that divides by zero, and then ends the session inside another word. -/
theorem execute_defineFromTokens_stopping :
    let stop : Word (Behavior Empty) :=
      { name := "stop", kind := .scripted, behavior := .compiled [(.primitive .bye, "bye")] }
    let s : Session Empty Unit :=
      { dictionary := Dictionary.empty.definePrimitives.define stop, source := .ofText "" "",
        stack := [.int 0, .int 5], hostState := () }
    let body : List Token := [{ text := "/" }, { text := "stop" }, { text := "dup" }]
    (∀ t ∈ body, ∃ w, s.dictionary.resolve t = some w ∧ w.immediate = false ∧
      w.behavior.SelfContained) ∧
    ∃ compiled w, defineFromTokens .none {} "halt" body s = .ok () compiled ∧
      compiled.dictionary.find? "halt" = some w ∧
      SameEffect (execute .none {} w compiled) (evaluateAll .none body s) ∧
      ((evaluateAll .none body s).answer = .ok () ∨
        ∃ reason, (evaluateAll .none body s).answer = .error { cause := .io reason }) := by
  intro stop s body
  have hslash : s.dictionary.find? "/" = some (Primitive.divide.word.renamed "/") :=
    (Dictionary.find?_define_of_ne _ stop (by decide)).trans
      (Dictionary.find?_definePrimitives_symbol _ .divide rfl)
  have hdup : s.dictionary.find? "dup" = some Primitive.dup.word :=
    (Dictionary.find?_define_of_ne _ stop (by decide)).trans
      (Dictionary.find?_definePrimitives _ .dup)
  have hstop : stop.behavior.SelfContained := by
    refine .compiled fun step hstep => ?_
    rw [List.mem_singleton.mp hstep]
    exact .primitive (by decide)
  have hb : ∀ t ∈ body, ∃ w, s.dictionary.resolve t = some w ∧ w.immediate = false ∧
      w.behavior.SelfContained := by
    intro t ht
    simp only [body, List.mem_cons, List.not_mem_nil, or_false] at ht
    rcases ht with rfl | rfl | rfl
    · exact ⟨_, Dictionary.resolve_of_find? hslash, rfl, .primitive (by decide)⟩
    · exact ⟨stop, Dictionary.resolve_of_find? (Dictionary.find?_define_self _ stop), rfl, hstop⟩
    · exact ⟨_, Dictionary.resolve_of_find? hdup, rfl, .primitive (by decide)⟩
  exact ⟨hb, execute_defineFromTokens .none s {} {} "halt" body hb⟩

end Forth
