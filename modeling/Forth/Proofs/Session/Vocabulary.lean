import Forth.Proofs.Definition.Atomic
import Forth.Proofs.Dictionary.Regular
import Forth.Proofs.Machine.Agreement

/-! # The words that a session knows

Whatever is run in a session, and however that ends, the session knows the
primitives and what definitions have bound. A definition takes its name from a
token, so every name can be spelled again, and no name is ever forgotten.
-/

namespace Forth

open Session

variable {σ : Type}

section Names

theorem Item.isBlank_of_mem_word {items : List Item} {c : Char} (h : c ∈ chars (word items)) :
    isBlank c = false := by
  obtain ⟨i, hi, hc⟩ := List.mem_filterMap.mp h
  have hink := List.mem_takeWhile_imp hi
  cases i with
  | char d =>
    cases hc
    simpa [isInk] using hink
  | seam | fault => cases hc

/-- The text of a token is not empty, and nothing in it is white space. -/
theorem Source.text_of_nextToken {s t : Source} {token : Token}
    (h : nextToken s = .ok (some token) t) :
    token.text ≠ "" ∧ ∀ c ∈ token.text.toList, isBlank c = false := by
  have hchars := Item.chars_word_ne_nil (word_ne_nil_of_nextToken h)
  obtain ⟨rfl, -⟩ := eq_of_nextToken h
  constructor
  · intro hempty
    apply hchars
    simpa [wordToken, Item.wordText] using congrArg String.toList hempty
  · intro c hc
    have hmem : c ∈ Item.chars (Item.word s.unread) := by
      simpa [wordToken, Item.wordText] using hc
    exact Item.isBlank_of_mem_word hmem

end Names

section Regular

variable {s : Session Empty σ}

theorem regular_define (hs : s.dictionary.Standard) (hd : s.dictionary.Regular) :
    (define .none s).state.dictionary.Regular := by
  obtain ⟨failure, -, hdefine⟩ | ⟨name, -, hname, hdefine⟩ := define_of_standard .none hs
  · rw [hdefine]
    exact hd
  · rw [hdefine]
    obtain ⟨after, hread⟩ := Source.nextToken_of_draft_name hname
    obtain ⟨hne, hblank⟩ := Source.text_of_nextToken hread
    exact hd.define (.defined rfl rfl hne hblank)

theorem Reachable.regular (hs : Reachable s) : s.dictionary.Regular := by
  induction hs with
  | start source hostState => exact Dictionary.regular_empty.definePrimitives
  | read _ _ ih | written _ _ ih | moved _ _ ih | resumed _ ih | pushed _ _ ih => exact ih
  | @ran s p name hs ih =>
    by_cases hp : p = .colon
    · subst hp
      exact regular_define hs.standard ih
    · obtain ⟨stack, source, output, exiting, -, h⟩ := Primitive.state_run hp (define .none) name s
      rw [h]
      exact ih

end Regular

section Extends

open Machine

theorem extends_steps :
    Session.Steps fun s t : Session Empty σ => s.dictionary.Extends t.dictionary where
  refl s := .refl s.dictionary
  trans h k := h.trans k
  nextToken s := by
    rw [nextToken, state_onSource]
    exact .refl s.dictionary
  flush s := by
    rw [flush, state_onOutput]
    exact .refl s.dictionary
  print text s := by
    rw [print, state_onOutput]
    exact .refl s.dictionary
  place s _ := .refl s.dictionary
  push _ s := .refl s.dictionary
  install _ _ _ s := Dictionary.extends_define s.dictionary _

theorem extends_step (m : Machine σ) :
    m.session.dictionary.Extends (step m).session.dictionary := by
  apply session_step extends_steps
  intro p name _ s _ hp
  obtain ⟨stack, source, output, exiting, -, h⟩ := Primitive.state_run hp (pure ()) name s
  rw [h]
  exact .refl s.dictionary

theorem extends_iterate (m : Machine σ) {i j : Nat} (hij : i ≤ j) :
    (step^[i] m).session.dictionary.Extends (step^[j] m).session.dictionary := by
  induction hij with
  | refl => exact .refl _
  | @step j _ ih =>
    rw [Function.iterate_succ_apply']
    exact ih.trans (extends_step _)

variable {s : Session Empty σ}

theorem extends_run (hs : s.dictionary.OnlyComments) :
    s.dictionary.Extends (run .none s).state.dictionary := by
  obtain ⟨n, hn⟩ := reaches_run hs
  have hextends := extends_iterate (turn s) (Nat.zero_le n)
  rw [hn] at hextends
  exact hextends

theorem extends_runSource (hs : s.dictionary.OnlyComments) (source : Source) :
    s.dictionary.Extends (runSource .none source s).state.dictionary := by
  have hrun := extends_run (s := { s with source }) hs
  rw [runSource]
  cases h : run .none { s with source } with
  | ok ending t | error failure t =>
    rw [h] at hrun
    exact hrun

end Extends

/-- What can be asked of a session from outside. -/
inductive Call where
  /-- To run what is left of its own source. -/
  | input
  | text (path contents : String)
  | file (files : FileTree) (path : String)

namespace Call

def perform : Call → SessionM Empty σ Ending
  | input => run .none
  | text path contents => processText .none path contents
  | file files path => processFile .none files path

variable {s : Session Empty σ}

theorem reachable_perform (call : Call) (hs : Reachable s) : Reachable (call.perform s).state := by
  cases call with
  | input => exact hs.run
  | text path contents => exact hs.processText path contents
  | file files path => exact hs.processFile files path

theorem extends_perform (call : Call) (hs : s.dictionary.OnlyComments) :
    s.dictionary.Extends (call.perform s).state.dictionary := by
  cases call with
  | input => exact extends_run hs
  | text path contents => exact extends_runSource hs _
  | file files path =>
    rw [perform, processFile]
    cases files.read path with
    | ok readings => exact extends_runSource hs _
    | error e => exact .refl s.dictionary

end Call

/-- The session after some calls, however they ended. -/
def Session.after (calls : List Call) (s : Session Empty σ) : Session Empty σ :=
  calls.foldl (fun s call => (call.perform s).state) s

section After

variable {s : Session Empty σ}

theorem Reachable.after (hs : Reachable s) (calls : List Call) : Reachable (s.after calls) := by
  induction calls generalizing s with
  | nil => exact hs
  | cons call calls ih => exact ih (call.reachable_perform hs)

theorem extends_after (hs : Reachable s) (calls : List Call) :
    s.dictionary.Extends (s.after calls).dictionary := by
  induction calls generalizing s with
  | nil => exact .refl s.dictionary
  | cons call calls ih =>
    have hcall := call.extends_perform hs.standard.onlyComments
    exact hcall.trans (ih (call.reachable_perform hs))

/-- The dictionary is well-formed at any time, and keeps every name through all calls and in every
step of a run. -/
theorem dictionary_after (hs : Reachable s) (calls : List Call) :
    s.dictionary.WellFormed ∧ (s.after calls).dictionary.WellFormed ∧
      s.dictionary.Extends (s.after calls).dictionary ∧
      ∀ i j, i ≤ j → (Machine.step^[i] (.turn s)).session.dictionary.Extends
        (Machine.step^[j] (.turn s)).session.dictionary := by
  refine ⟨hs.regular.wellFormed, ?_, extends_after hs calls, ?_⟩
  · exact (hs.after calls).regular.wellFormed
  · intro i j hij
    exact extends_iterate (.turn s) hij

/-- Here a name of the language is bound anew, a definition is cut off, the input fails in the middle
of another one, and a file is missing. -/
theorem dictionary_after_failures :
    let s : Session Empty Unit :=
      { dictionary := Dictionary.empty.definePrimitives,
        source := ⟨.start "", [.char ':', .char ' ', .char 'x', .fault "lost"], 0⟩, hostState := () }
    let calls := [.text "" ": \\ dup ; : def : ; def", .input, .file {} "missing"]
    Reachable s ∧ s.dictionary.WellFormed ∧ (s.after calls).dictionary.WellFormed ∧
      s.dictionary.Extends (s.after calls).dictionary ∧
      ∀ i j, i ≤ j → (Machine.step^[i] (.turn s)).session.dictionary.Extends
        (Machine.step^[j] (.turn s)).session.dictionary := by
  intro s calls
  have hs : Reachable s := .start _ ()
  exact ⟨hs, dictionary_after hs calls⟩

end After

end Forth
