import Forth.Proofs.Definition.Tokens
import Forth.Proofs.Session.Follows

/-! # Words are bound early

A word that reads nothing and looks nothing up does its work on the stack alone.
It does the same in every session, so it does the same before and after any
history of definitions. What was compiled against a word holds the word's
behavior, and goes on to do what it did when the name means something else.
-/

namespace Forth

open Session

variable {σ : Type}

namespace Output

/-- The second output, written behind what the first one has written. -/
def behind (before o : Output) : Output :=
  { before with written := before.written ++ o.written, room := o.room }

theorem print_behind (text : String) (before o : Output) :
    print text (before.behind o) = (print text o).mapState before.behind := by
  cases hroom : o.room with
  | none => simp [print, behind, hroom, ByteArray.append_assoc]
  | some room =>
    simp only [print, behind, hroom]
    split <;> simp [behind, ByteArray.append_assoc]

end Output

namespace Session

/-- The session works with the stack and the exit flag of another one, and writes what that one
writes. -/
def taking (s t : Session Empty σ) : Session Empty σ :=
  { s with stack := t.stack, output := s.output.behind t.output, exiting := t.exiting }

/-- The session with a stack, room for so much output, and an exit flag. -/
def given (s : Session Empty σ) (stack : Stack) (room : Option Nat) (exiting : Bool) :
    Session Empty σ :=
  { s with stack, output := { s.output with room }, exiting }

/-- What is given, to a session that has written nothing. -/
def blank (s : Session Empty σ) (stack : Stack) (room : Option Nat) (exiting : Bool) :
    Session Empty σ :=
  { s with stack, output := { room }, exiting }

theorem taking_blank (s t : Session Empty σ) (stack : Stack) (room : Option Nat)
    (exiting : Bool) : s.taking (t.blank stack room exiting) = s.given stack room exiting := by
  simp [taking, blank, given, Output.behind]

theorem commutes_print_taking (s : Session Empty σ) (text : String) :
    Commutes s.taking (print text) := by
  intro t
  simp only [print, onOutput, taking, Output.print_behind]
  cases Output.print text t.output <;> rfl

theorem commutes_perform_taking (s : Session Empty σ) (e : Primitive.Effect) :
    Commutes s.taking e.perform := by
  have hwrite : Commutes s.taking (Primitive.Effect.write e.text : SessionM Empty σ Unit) := by
    cases e.text with
    | none => exact .pure _ ()
    | some text => exact commutes_print_taking s text
  have hheld : Commutes s.taking
      (modify fun t => { t with stack := e.held } : SessionM Empty σ Unit) :=
    .modify fun _ => rfl
  exact hheld.bind fun _ => hwrite.bind fun _ => .modify fun _ => rfl

theorem commutes_run_taking (s : Session Empty σ) {p : Primitive} (hp : p.WorksOnStack)
    (define : SessionM Empty σ Unit) (name : String) : Commutes s.taking (p.run define name) := by
  intro t
  rw [Primitive.run_eq_perform hp, Primitive.run_eq_perform hp]
  exact commutes_perform_taking s _ t

end Session

namespace Behavior

variable {κ : Type}

theorem SelfContained.worksOnStack {b : Behavior κ} (hb : b.SelfContained) (hc : b.CommentFree) :
    b.BuiltFrom Primitive.WorksOnStack := by
  induction hb with
  | primitive hp =>
    cases hc with
    | primitive hne => exact .primitive ⟨hp.2, hne, hp.1⟩
  | literal v => exact .literal v
  | compiled _ ih =>
    cases hc with
    | compiled hsteps => exact .compiled fun step hstep => ih step hstep (hsteps step hstep)

theorem invoke_taking {b : Behavior Empty} (hb : b.BuiltFrom Primitive.WorksOnStack)
    (name : String) (s t : Session Empty σ) :
    invoke .none b name (s.taking t) = (invoke .none b name t).mapState s.taking := by
  have hinvoke : Commutes s.taking (invoke .none b name) := by
    apply Commutes.invokeWith hb
    · exact fun _ => rfl
    · exact fun p name hp => commutes_run_taking s hp _ name
    · exact fun v => .modify fun _ => rfl
  exact hinvoke t

end Behavior

/-- Two sessions have done the same: they have come to the same answer, have left the same stack and
exit flag, and have written the same behind what was on their outputs before. -/
structure SameRun (o p : Output) (x y : EStateM.Result Failure (Session Empty σ) Unit) :
    Prop where
  answer : x.answer = y.answer
  stack : x.state.stack = y.state.stack
  exiting : x.state.exiting = y.state.exiting
  written : ∃ bytes, x.state.output.written = o.written ++ bytes ∧
    y.state.output.written = p.written ++ bytes

theorem invoke_given {b : Behavior Empty} (hb : b.BuiltFrom Primitive.WorksOnStack) (name : String)
    (s t : Session Empty σ) (stack : Stack) (room : Option Nat) (exiting : Bool) :
    SameRun s.output t.output (invoke .none b name (s.given stack room exiting))
      (invoke .none b name (t.given stack room exiting)) := by
  rw [← taking_blank s s, ← taking_blank t s, Behavior.invoke_taking hb, Behavior.invoke_taking hb]
  generalize invoke .none b name (s.blank stack room exiting) = r
  constructor
  · simp
  · simp [taking]
  · simp [taking]
  · exact ⟨r.state.output.written, by simp [taking, Output.behind], by simp [taking, Output.behind]⟩

theorem state_invoke_given {b : Behavior Empty} (hb : b.BuiltFrom Primitive.WorksOnStack)
    (name : String) (s : Session Empty σ) (stack : Stack) (room : Option Nat) (exiting : Bool) :
    (invoke .none b name (s.given stack room exiting)).state.dictionary = s.dictionary ∧
      (invoke .none b name (s.given stack room exiting)).state.source = s.source := by
  rw [← taking_blank s s, Behavior.invoke_taking hb, EStateM.Result.state_mapState]
  exact ⟨rfl, rfl⟩

/-- How a word runs that was bound in the session, whatever the session becomes. -/
structure BoundEarly (s : Session Empty σ) (w : Word (Behavior Empty)) : Prop where
  /-- From the same stack, exit flag and room for output it does what it did before. -/
  same : ∀ t, Follows s t → ∀ place later stack room exiting,
    SameRun s.output t.output (execute .none place w (s.given stack room exiting))
      (execute .none later w (t.given stack room exiting))
  unchanged : ∀ t, Follows s t → ∀ place stack room exiting,
    (execute .none place w (t.given stack room exiting)).state.dictionary = t.dictionary ∧
      (execute .none place w (t.given stack room exiting)).state.source = t.source
  /-- A definition that is read, or made from tokens, while the name is bound to the word binds a
  word whose steps under that name go on to do what the word did. -/
  callers : ∀ r u, Follows s r → r.dictionary.find? w.name = some w →
    (define .none r = .ok () u ∨
      ∃ place name body, defineFromTokens .none place name body r = .ok () u) →
    ∃ c steps, u.dictionary = r.dictionary.define c ∧ c.behavior = .compiled steps ∧
      ∀ b, (b, w.name) ∈ steps → ∀ t, Follows u t → ∀ place stack room exiting,
        SameRun s.output t.output (execute .none place w (s.given stack room exiting))
          (invoke .none b w.name (t.given stack room exiting))
  /-- Each token that names the word leaves such a step. -/
  compiled : ∀ r u place name body, Follows s r → r.dictionary.find? w.name = some w →
    defineFromTokens .none place name body r = .ok () u → ∀ y ∈ body, y.text = w.name →
    ∃ c steps, u.dictionary.find? name = some c ∧ c.behavior = .compiled steps ∧
      (w.behavior, w.name) ∈ steps

theorem bound_early {s : Session Empty σ} (hs : Attainable s) {w : Word (Behavior Empty)}
    (hw : s.dictionary.find? w.name = some w) (hk : w.kind = .scripted)
    (hself : w.behavior.SelfContained) : BoundEarly s w := by
  have hnormal : w.immediate = false ∧ w.behavior.CommentFree := by
    cases hs.proper w.name w hw with
    | comment _ hnative _ => simp [hk] at hnative
    | normal hn hc => exact ⟨hn, hc⟩
  have hb := hself.worksOnStack hnormal.2
  constructor
  · intro t _ place later stack room exiting
    exact invoke_given hb w.name { s with current := some place } { t with current := some later }
      stack room exiting
  · intro t _ place stack room exiting
    exact state_invoke_given hb w.name { t with current := some place } stack room exiting
  · intro r u hr hname hdefines
    have hd := (hs.follows hr).proper.onlyComments
    have hbinds : Binds r.dictionary (.ok () u) := by
      rcases hdefines with h | ⟨place, name, body, h⟩
      · exact h ▸ binds_define .none hd
      · exact h ▸ binds_defineFromTokens .none hd place name body
    cases hbinds with
    | @bound c _ hc hu =>
      obtain ⟨steps, hsteps, hholds⟩ := hc.steps
      refine ⟨c, steps, hu, hsteps, fun b hstep t _ place stack room exiting => ?_⟩
      obtain rfl : b = w.behavior := (hholds _ hstep).behavior_eq hname
      exact invoke_given hb w.name { s with current := some place } t stack room exiting
  · intro r u place name body hr hname hdefines y hy hyname
    obtain ⟨steps, v, hcompiled, hinstall⟩ := bind_ok_cases hdefines
    cases hinstall
    have hd := (hs.follows hr).proper.onlyComments
    refine ⟨_, steps, Dictionary.find?_define_self _ _, rfl, ?_⟩
    rw [← hyname]
    refine (holds_of_compileTokens hd hcompiled).2 y hy w ?_ hnormal.1
    exact Dictionary.resolve_of_find? (hyname ▸ hname)

/-- Here the words of a word's body are bound to something else, and then its own name. -/
theorem bound_early_redefined :
    let base : Session Empty Unit :=
      { dictionary := Dictionary.empty.definePrimitives, source := .ofText "" "", hostState := () }
    let double : Word (Behavior Empty) :=
      { name := "double", location := some {}, kind := .scripted, description := "User defined word.",
        behavior := .compiled [(.primitive .dup, "dup"), (.primitive .plus, "+")] }
    let s := { base with dictionary := base.dictionary.define double }
    let t := (processText .none "" ": dup drop ; : + 7 ; : double 0 ;" s).state
    Attainable s ∧ s.dictionary.find? double.name = some double ∧ double.kind = .scripted ∧
      double.behavior.SelfContained ∧ BoundEarly s double ∧
      (execute .none {} double (t.given [.int 3] none false)).state.stack = [.int 6] := by
  intro base double s t
  have hdup : base.dictionary.resolve { text := "dup" } = some Primitive.dup.word :=
    Dictionary.resolve_of_find? (Dictionary.find?_definePrimitives _ .dup)
  have hplus : base.dictionary.resolve { text := "+" } = some (Primitive.plus.word.renamed "+") :=
    Dictionary.resolve_of_find? (Dictionary.find?_definePrimitives_symbol _ .plus rfl)
  have hcompiled : defineFromTokens .none {} "double" [{ text := "dup" }, { text := "+" }] base =
      .ok () s := by
    apply bind_of_ok
    apply (Compiles.step hdup rfl (.step hplus rfl (.done base))).compileTokens_eq
  have hs : Attainable s := by
    refine ⟨base.source, (), ?_⟩
    have hfollows := Follows.refl.compiled {} "double" [{ text := "dup" }, { text := "+" }]
      (s := base)
    rwa [hcompiled] at hfollows
  have hw : s.dictionary.find? double.name = some double := Dictionary.find?_define_self _ double
  have hself : double.behavior.SelfContained := by
    refine .compiled fun step hstep => ?_
    simp only [List.mem_cons, List.not_mem_nil, or_false] at hstep
    rcases hstep with rfl | rfl
    · exact .primitive (by decide)
    · exact .primitive (by decide)
  have hbound := bound_early hs hw rfl hself
  have hsame := hbound.same t (Follows.refl.processText ..) {} {} [.int 3] none false
  exact ⟨hs, hw, rfl, hself, hbound, hsame.stack.symm⟩

end Forth
