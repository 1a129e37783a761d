import Forth.Proofs.Session.Locality
import Forth.Session.Run

/-! # Sources that are processed inside others

A word from outside can process a source while another one is being read, and
the words of that source can do so in turn. None of this reads the source around
it: that one goes on where it was, and what it holds makes no difference to what
is processed inside.
-/

namespace Forth

open Session

variable {κ σ α β : Type}

/-- The session with another source in place of its own. -/
def Session.reading (source : Source) (s : Session κ σ) : Session κ σ := { s with source }

/-- The action neither reads the source nor replaces it. What it does is the same with any other. -/
def Isolated (m : SessionM κ σ α) : Prop := ∀ source, Commutes (reading source) m

namespace Isolated

theorem source_eq {m : SessionM κ σ α} (hm : Isolated m) (s : Session κ σ) :
    (m s).state.source = s.source := by
  have hself : m s = (m s).mapState (reading s.source) := hm s.source s
  rw [hself, EStateM.Result.state_mapState]
  rfl

theorem pure (a : α) : Isolated (pure a : SessionM κ σ α) := fun _ => .pure _ a

theorem throw (failure : Failure) : Isolated (throw failure : SessionM κ σ α) := fun _ _ => rfl

theorem bind {m : SessionM κ σ α} {f : α → SessionM κ σ β} (hm : Isolated m)
    (hf : ∀ a, Isolated (f a)) : Isolated (m >>= f) :=
  fun source => (hm source).bind fun a => hf a source

theorem forM {f : α → SessionM κ σ PUnit} (hf : ∀ a, Isolated (f a)) (as : List α) :
    Isolated (as.forM f) := by
  induction as with
  | nil => exact pure _
  | cons a as ih => exact (hf a).bind fun _ => ih

theorem onOutput (m : OutputM α) : Isolated (onOutput m : SessionM κ σ α) :=
  fun source => Commutes.onOutput (f := reading source) (fun _ _ => rfl) (fun _ => rfl) m

theorem push (v : Value) : Isolated (push v : SessionM κ σ Unit) :=
  fun _ => .modify fun _ => rfl

theorem apart_reading (source : Source) :
    Session.Apart (reading source : Session κ σ → Session κ σ) where
  stack _ _ := rfl
  output _ _ := rfl
  exiting _ _ := rfl
  sameOutput _ := rfl
  sameExiting _ := rfl

theorem run {p : Primitive} (hcolon : p ≠ .colon) (hcomment : p ≠ .comment)
    (define : SessionM κ σ Unit) (name : String) : Isolated (p.run define name) := by
  intro source s
  by_cases hd : p = .dotDictionary
  · subst hd
    exact onOutput (Output.printOrFail s.dictionary.listing) source s
  · have hp : p.WorksOnStack := ⟨hd, hcomment, hcolon⟩
    rw [Primitive.run_eq_perform hp, Primitive.run_eq_perform hp]
    exact Commutes.perform (apart_reading source) _ s

theorem replayStep {first rest : SessionM κ σ Unit} (hfirst : Isolated first)
    (hrest : Isolated rest) : Isolated (Behavior.replayStep first rest) :=
  fun source => Commutes.replayStep (f := reading source) (fun _ => rfl) (hfirst source) (hrest source)

/-- A source is processed without a look at the one around it. -/
theorem runSource (host : Host κ σ) (inner : Source) : Isolated (runSource host inner) := by
  intro source s
  simp only [Forth.runSource, reading]
  cases Forth.run host { s with source := inner } <;> rfl

end Isolated

/-- What is invoked reads nothing from the source of the session. It can be built from words from
outside that are isolated, and none of its primitives is a `:` or a comment. -/
inductive Behavior.ReadsAside (host : Host κ σ) : Behavior κ → Prop
  | primitive {p : Primitive} : p ≠ .colon → p ≠ .comment → ReadsAside host (.primitive p)
  | literal (v : Value) : ReadsAside host (.literal v)
  | compiled {steps : List (Step κ)} :
      (∀ step ∈ steps, ReadsAside host step.1) → ReadsAside host (.compiled steps)
  | host {k : κ} : (∀ name, Isolated (host k name)) → ReadsAside host (.host k)

section Words

variable {host : Host κ σ} {b : Behavior κ} {w : Word (Behavior κ)} {t : Token} {s : Session κ σ}

theorem Behavior.ReadsAside.invoke (hb : b.ReadsAside host) (name : String) :
    Isolated (invoke host b name) := by
  induction hb generalizing name with
  | primitive hcolon hcomment => exact .run hcolon hcomment _ name
  | literal v => exact .push v
  | host hk => exact hk name
  | @compiled steps _ ih =>
    induction steps with
    | nil => exact .pure ()
    | cons first rest ihr =>
      have hsteps := ‹∀ step ∈ first :: rest, step.1.ReadsAside host›
      refine .replayStep (ih first List.mem_cons_self first.2) (ihr ?_ ?_)
      · exact fun step hstep => hsteps step (List.mem_cons_of_mem _ hstep)
      · exact fun step hstep => ih step (List.mem_cons_of_mem _ hstep)

theorem Behavior.ReadsAside.execute (hw : w.behavior.ReadsAside host) (place : Location) :
    Isolated (execute host place w) :=
  .bind (fun _ => .modify fun _ => rfl) fun _ => hw.invoke w.name

theorem evaluate_reading (hword : s.dictionary.resolve t = some w)
    (hw : w.behavior.ReadsAside host) (outer : Source) :
    evaluate host t (s.reading outer) = (evaluate host t s).mapState (reading outer) := by
  have hrun : runToken host t (s.reading outer) = (runToken host t s).mapState (reading outer) := by
    rw [runToken_of_resolve hword, runToken_of_resolve (s := s.reading outer) hword]
    exact hw.execute t.location outer s
  refine bind_mapState (attempt_mapState hrun) fun answer u _ => ?_
  cases answer with
  | ok => rfl
  | error failure => exact Isolated.onOutput (Output.print _) outer u

theorem compileToken_reading (hword : s.dictionary.resolve t = some w)
    (hw : w.behavior.ReadsAside host) (outer : Source) :
    compileToken (execute host) t (s.reading outer) =
      (compileToken (execute host) t s).mapState (reading outer) := by
  have hsame : (s.reading outer).dictionary.resolve t = some w := hword
  rw [compileToken, get_bind_apply, get_bind_apply, hword, hsame]
  cases himm : w.immediate with
  | true =>
    simp only [himm, if_true]
    exact (hw.execute t.location).bind (fun _ => .pure none) outer s
  | false =>
    simp only [himm]
    rfl

end Words

/-- Words from outside that process sources, each of them its own ones up to the first that fails.
The sources can use these words in turn, nested at most so deeply. -/
def Host.processing (sources : κ → List Source) : Nat → Host κ σ
  | 0 => fun _ _ => throw { cause := .io "sources nested too deeply" }
  | depth + 1 => fun k _ => (sources k).forM fun source => do
    let _ ← runSource (Host.processing sources depth) source

theorem isolated_processing (sources : κ → List Source) (depth : Nat) (k : κ) (name : String) :
    Isolated (Host.processing sources depth k name : SessionM κ σ Unit) := by
  cases depth with
  | zero => exact .throw _
  | succ depth => exact .forM (fun source => (Isolated.runSource _ source).bind fun _ => .pure ()) _

/-- The action leaves the source of the session where it was, whatever it comes to, and that source
makes no difference to it. It leaves no request for the end of the session. -/
structure ProcessesAside (m : SessionM κ σ Ending) : Prop where
  source : ∀ s, (m s).state.source = s.source
  exiting : ∀ s, (m s).state.exiting = false
  isolated : Isolated m

/-- How sources are processed in the midst of another one, whatever the words from outside do. -/
structure IsolatesSources (host : Host κ σ) : Prop where
  text : ∀ path text, ProcessesAside (processText host path text)
  file : ∀ files path readings, files.read path = .ok readings →
    ProcessesAside (processFile host files path)
  unopened : ∀ files path e s, files.read path = .error e →
    processFile host files path s = .error (.unopened path e.text) s ∧
      (Failure.unopened path e.text).isFatal = true
  /-- A word that processes sources, at any depth, can be invoked in the midst of a token. -/
  invoked : ∀ b name, b.ReadsAside host → Isolated (invoke host b name)
  evaluated : ∀ t w s outer, s.dictionary.resolve t = some w → w.behavior.ReadsAside host →
    evaluate host t (s.reading outer) = (evaluate host t s).mapState (reading outer)
  /-- In the text of a definition the words that are run take nothing of it. -/
  compiled : ∀ t w s outer, s.dictionary.resolve t = some w → w.behavior.ReadsAside host →
    compileToken (execute host) t (s.reading outer) =
      (compileToken (execute host) t s).mapState (reading outer)

theorem processesAside_runSource (host : Host κ σ) (inner : Source) :
    ProcessesAside (runSource host inner) where
  source := (Isolated.runSource host inner).source_eq
  exiting s := by
    rw [runSource]
    cases run host { s with source := inner } <;> rfl
  isolated := .runSource host inner

/-- A source that is processed inside another one neither takes from it nor depends on it. -/
theorem isolatesSources (host : Host κ σ) :
    IsolatesSources host ∧ ∀ sources depth k name,
      Isolated (Host.processing sources depth k name : SessionM κ σ Unit) := by
  refine ⟨⟨?_, ?_, ?_, ?_, ?_, ?_⟩, isolated_processing⟩
  · exact fun path text => processesAside_runSource host _
  · intro files path readings hread
    rw [processFile, hread]
    exact processesAside_runSource host _
  · intro files path e s he
    rw [processFile, he]
    exact ⟨rfl, rfl⟩
  · exact fun b name hb => hb.invoke name
  · exact fun t w s outer hword hw => evaluate_reading hword hw outer
  · exact fun t w s outer hword hw => compileToken_reading hword hw outer

/-- The innermost text leaves a definition open, and the one around it a comment. -/
example :
    let inside : Bool → List Source
      | true => [.ofText "<text>" "1 again \\ more"]
      | false => [.ofText "<again>" "2 . : open"]
    let dictionary := (Dictionary.empty.definePrimitives.define
      { name := "text", behavior := .host true }).define { name := "again", behavior := .host false }
    let s : Session Bool Unit :=
      { dictionary, source := .ofText "<outer>" "text ; 3", hostState := () }
    let r := run (Host.processing inside 3) s
    r.answer = .error { cause := .truncatedDefinition, location := some ⟨"<again>", 1, 5⟩ } ∧
      r.state.source = ⟨⟨"<outer>", 1, 5⟩, [' ', ';', ' ', '3'].map .char, 0⟩ ∧
      r.state.stack = [.int 1] := by
  decide +kernel

end Forth
