import Forth.Proofs.Session.Alike
import Forth.Proofs.Session.Locality

/-! # Evaluation does not look at the flushes

Only a turn of a run flushes the output. What a token does is the same whatever
number of flushes there was before and whichever of them is to fail, and it
leaves both as they are.
-/

namespace Forth

open Session

variable {κ σ α β : Type}

namespace Output

def counting (flushes : Nat) (failing : Option Nat) (o : Output) : Output :=
  { o with flushes, failingFlush := failing }

theorem print_counting (text : String) (o : Output) (flushes : Nat) (failing : Option Nat) :
    print text (o.counting flushes failing) =
      (print text o).mapState (counting flushes failing) := by
  rw [print, print, counting]
  cases o.room with
  | none => rfl
  | some room =>
    simp only
    split <;> rfl

end Output

/-- There were so many flushes, and another one is to fail. -/
def Session.counting (flushes : Nat) (failing : Option Nat) (s : Session κ σ) : Session κ σ :=
  { s with output := s.output.counting flushes failing }

/-- The action leaves the number of flushes as it is, and does not depend on it. -/
def FlushFree (m : SessionM κ σ α) : Prop :=
  ∀ flushes failing, Commutes (counting flushes failing) m

namespace FlushFree

theorem pure (a : α) : FlushFree (pure a : SessionM κ σ α) := fun _ _ => .pure _ a

theorem throw (failure : Failure) : FlushFree (throw failure : SessionM κ σ α) :=
  fun _ _ _ => rfl

theorem bind {m : SessionM κ σ α} {f : α → SessionM κ σ β} (hm : FlushFree m)
    (hf : ∀ a, FlushFree (f a)) : FlushFree (m >>= f) :=
  fun flushes failing => (hm flushes failing).bind fun a => hf a flushes failing

theorem attempt {m : SessionM κ σ α} (hm : FlushFree m) : FlushFree (attempt m) :=
  fun flushes failing s => attempt_mapState (hm flushes failing s)

theorem onSource (m : SourceM α) : FlushFree (onSource m : SessionM κ σ α) :=
  fun flushes failing =>
    Commutes.onSource (f := counting flushes failing) (fun _ _ => rfl) (fun _ => rfl) m

theorem nextToken : FlushFree (nextToken : SessionM κ σ (Option Token)) := onSource _

theorem print (text : String) : FlushFree (print text : SessionM κ σ Unit) := by
  intro flushes failing s
  simp only [Session.print, onOutput, counting, Output.print_counting]
  cases Output.print text s.output <;> rfl

theorem printOrFail (text : Except Failure String) :
    FlushFree (printOrFail text : SessionM κ σ Unit) := by
  cases text with
  | ok text => exact print text
  | error failure => exact fun _ _ _ => rfl

theorem perform (e : Primitive.Effect) : FlushFree (e.perform : SessionM κ σ Unit) := by
  have hwrite : FlushFree (Primitive.Effect.write e.text : SessionM κ σ Unit) := by
    cases e.text with
    | none => exact pure ()
    | some text => exact print text
  refine bind (fun _ _ => .modify fun _ => rfl) fun _ => hwrite.bind fun _ => ?_
  exact fun _ _ => .modify fun _ => rfl

theorem run {p : Primitive} {define : SessionM κ σ Unit} (hdefine : FlushFree define)
    (name : String) : FlushFree (p.run define name) := by
  by_cases hp : p.WorksOnStack
  · intro flushes failing s
    rw [Primitive.run_eq_perform hp, Primitive.run_eq_perform hp]
    exact perform _ flushes failing s
  · cases p with
    | colon => exact hdefine
    | comment => exact (onSource _).bind fun _ => pure ()
    | dotDictionary =>
      exact fun flushes failing s => printOrFail s.dictionary.listing flushes failing s
    | _ => exact absurd ⟨nofun, nofun, nofun⟩ hp

end FlushFree

section Counting

variable (flushes : Nat) (failing : Option Nat) (s : Session κ σ)

@[simp] theorem dictionary_counting : (s.counting flushes failing).dictionary = s.dictionary := rfl

@[simp] theorem current_counting : (s.counting flushes failing).current = s.current := rfl

end Counting

section Evaluate

variable {define : SessionM Empty σ Unit} {execute : Execute Empty σ}

theorem flushFree_invokeWith (hdefine : FlushFree define) (b : Behavior Empty) (name : String) :
    FlushFree (b.invokeWith define .none name) := by
  intro flushes failing
  have hb : b.BuiltFrom fun _ => True := .of_no_host b
  refine Commutes.invokeWith (f := counting flushes failing) hb (fun _ => rfl) ?_ ?_ name
  · exact fun p word _ => FlushFree.run hdefine word flushes failing
  · exact fun v => .modify fun _ => rfl

theorem flushFree_executeWith (hdefine : FlushFree define) (place : Location)
    (w : Word (Behavior Empty)) : FlushFree (Word.executeWith define .none place w) :=
  .bind (fun _ _ => .modify fun _ => rfl) fun _ => flushFree_invokeWith hdefine w.behavior w.name

theorem flushFree_compileToken (hexecute : ∀ place w, FlushFree (execute place w)) (t : Token) :
    FlushFree (compileToken execute t) := by
  intro flushes failing s
  rw [compileToken, get_bind_apply, get_bind_apply, dictionary_counting]
  cases s.dictionary.resolve t with
  | none => rfl
  | some w =>
    cases himm : w.immediate with
    | true =>
      simp only [himm, if_true]
      exact (hexecute t.location w).bind (fun _ => .pure none) flushes failing s
    | false =>
      simp only [himm]
      rfl

theorem flushFree_skipToken (hexecute : ∀ place w, FlushFree (execute place w)) (t : Token) :
    FlushFree (skipToken execute t) := by
  intro flushes failing s
  rw [skipToken, get_bind_apply, get_bind_apply, dictionary_counting]
  cases s.dictionary.resolve t with
  | none => rfl
  | some w =>
    cases himm : w.immediate with
    | true =>
      simp only [himm, if_true]
      exact (hexecute t.location w).attempt.bind (fun _ => .pure ()) flushes failing s
    | false =>
      simp only [himm]
      rfl

theorem flushFree_skipBody (hexecute : ∀ place w, FlushFree (execute place w))
    (truncated : Failure) (bound : Nat) : FlushFree (skipBody execute truncated bound) := by
  induction bound with
  | zero => exact .throw truncated
  | succ bound ih =>
    refine FlushFree.nextToken.bind fun token => ?_
    cases token with
    | none => exact .throw truncated
    | some t =>
      by_cases hend : t.text = endOfDefinition
      · simp only [hend, if_true]
        exact .pure ()
      · simp only [hend, if_false]
        exact (flushFree_skipToken hexecute t).bind fun _ => ih

theorem flushFree_compileBody (hexecute : ∀ place w, FlushFree (execute place w))
    (truncated : Failure) (bound : Nat) : FlushFree (compileBody execute truncated bound) := by
  induction bound with
  | zero => exact .throw truncated
  | succ bound ih =>
    refine FlushFree.nextToken.bind fun token => ?_
    cases token with
    | none => exact .throw truncated
    | some t =>
      by_cases hend : t.text = endOfDefinition
      · simp only [hend, if_true]
        exact .pure []
      · simp only [hend, if_false]
        refine (flushFree_compileToken hexecute t).attempt.bind fun answer => ?_
        cases answer with
        | ok step => exact ih.bind fun steps => .pure _
        | error failure =>
          exact (flushFree_skipBody hexecute truncated bound).bind fun _ => .throw failure

/-- The induction is on the definitions that are nested in one another. -/
theorem flushFree_defineWithin (bound : Nat) :
    FlushFree (defineWithin .none bound : SessionM Empty σ Unit) := by
  induction bound with
  | zero => exact fun _ _ _ => rfl
  | succ bound ih =>
    intro flushes failing s
    rw [defineWithin, get_bind_apply, get_bind_apply, current_counting]
    refine FlushFree.nextToken.bind (fun token => ?_) flushes failing s
    cases token with
    | none => exact .throw _
    | some name =>
      refine (flushFree_compileBody (flushFree_executeWith ih) _ bound).bind fun steps => ?_
      exact fun _ _ => .modify fun _ => rfl

theorem flushFree_define : FlushFree (Forth.define .none : SessionM Empty σ Unit) :=
  fun flushes failing s => flushFree_defineWithin s.source.bound flushes failing s

theorem flushFree_runToken (t : Token) : FlushFree (runToken .none t : SessionM Empty σ Unit) := by
  intro flushes failing s
  rw [runToken, get_bind_apply, get_bind_apply, dictionary_counting]
  cases s.dictionary.resolve t with
  | none => rfl
  | some w => exact flushFree_executeWith flushFree_define t.location w flushes failing s

theorem flushFree_evaluate (t : Token) : FlushFree (evaluate .none t : SessionM Empty σ Unit) := by
  refine (flushFree_runToken t).attempt.bind fun answer => ?_
  cases answer with
  | ok => exact .pure ()
  | error failure => exact .print _

end Evaluate

end Forth
