import Forth.Proofs.Dictionary.View
import Forth.Proofs.Output
import Forth.Proofs.Primitive.Frame
import Forth.Session.Definition

/-! # Sessions that go on alike

Two sessions can read different sources, stand at different places, and have
flushed their outputs another number of times, and still do the same. What they
need in common is the stack, the dictionary up to a view of places, the exit
flag, and what their outputs have taken and still can take.
-/

namespace Forth

open Session

variable {σ α : Type}

/-- What the answer is, without the place of a failure. -/
def kind (a : Except Failure α) : Except Cause α := a.mapError Failure.cause

@[simp] theorem kind_ok (a : α) : kind (.ok a) = .ok a := rfl

@[simp] theorem kind_error (failure : Failure) :
    (kind (.error failure) : Except Cause α) = .error failure.cause := rfl

namespace Output

/-- No flush that is still to come fails. -/
def Steady (o : Output) : Prop := ∀ n, o.failingFlush = some n → n ≤ o.flushes

def flushed (o : Output) : Output := { o with flushes := o.flushes + 1 }

theorem Steady.flushed {o : Output} (h : o.Steady) : o.flushed.Steady :=
  fun n hn => Nat.le_succ_of_le (h n hn)

theorem Steady.flush {o : Output} (h : o.Steady) : flush o = .ok () o.flushed := by
  have hne : o.failingFlush ≠ some (o.flushes + 1) := fun heq =>
    Nat.not_succ_le_self o.flushes (h _ heq)
  simp only [Output.flush, hne, if_false, Output.flushed]

/-- Both have taken the same and have room for the same, and none will fail to flush. -/
structure Alike (o p : Output) : Prop where
  written : o.written = p.written
  room : o.room = p.room
  left : o.Steady
  right : p.Steady

theorem Alike.flushed {o p : Output} (h : o.Alike p) : o.flushed.Alike p.flushed :=
  ⟨h.written, h.room, h.left.flushed, h.right.flushed⟩

theorem Alike.print {o p : Output} (h : o.Alike p) (text : String) :
    (print text o).answer = (print text p).answer ∧
      (print text o).state.Alike (print text p).state := by
  obtain ⟨hwritten, hroom, hleft, hright⟩ := h
  rw [Output.print, Output.print, ← hwritten]
  cases hp : p.room with
  | none =>
    rw [hp] at hroom
    rw [hroom]
    exact ⟨rfl, rfl, rfl, hleft, hright⟩
  | some room =>
    rw [hp] at hroom
    rw [hroom]
    simp only
    split
    · exact ⟨rfl, rfl, rfl, hleft, hright⟩
    · exact ⟨rfl, rfl, rfl, hleft, hright⟩

end Output

theorem Session.flush_of_steady {κ : Type} {s : Session κ σ} (hs : s.output.Steady) :
    flush s = .ok () { s with output := s.output.flushed } := by
  simp only [flush, onOutput, hs.flush]

structure Session.Alike (view : Location → Location) (s t : Session Empty σ) : Prop where
  stack : s.stack = t.stack
  dictionary : s.dictionary.Alike view t.dictionary
  output : s.output.Alike t.output
  exiting : s.exiting = t.exiting

/-- Both come to the same kind of answer, in sessions that go on alike. -/
structure SameEnd (view : Location → Location) (x y : EStateM.Result Failure (Session Empty σ) α) :
    Prop where
  kind : kind x.answer = kind y.answer
  state : x.state.Alike view y.state

namespace Session.Alike

variable {view : Location → Location} {s t : Session Empty σ}

theorem flush (h : s.Alike view t) :
    Session.flush s = .ok () { s with output := s.output.flushed } ∧
      Session.flush t = .ok () { t with output := t.output.flushed } ∧
      { s with output := s.output.flushed }.Alike view { t with output := t.output.flushed } :=
  ⟨flush_of_steady h.output.left, flush_of_steady h.output.right, h.stack, h.dictionary,
    h.output.flushed, h.exiting⟩

theorem print (h : s.Alike view t) (text : String) :
    SameEnd view (Session.print text s) (Session.print text t) := by
  obtain ⟨hanswer, houtput⟩ := h.output.print text
  constructor
  · rw [Session.print, onOutput, onOutput]
    cases ho : Output.print text s.output with
    | ok _ o =>
      cases hp : Output.print text t.output with
      | ok _ p => rfl
      | error => simp [ho, hp] at hanswer
    | error failure o =>
      cases hp : Output.print text t.output with
      | ok => simp [ho, hp] at hanswer
      | error failed p =>
        obtain rfl : failure = failed := by simpa [ho, hp] using hanswer
        rfl
  · rw [Session.print, state_onOutput, state_onOutput]
    exact ⟨h.stack, h.dictionary, houtput, h.exiting⟩

theorem printOrFail (h : s.Alike view t) (text : Except Failure String) :
    SameEnd view (Session.printOrFail text s) (Session.printOrFail text t) := by
  cases text with
  | ok text => exact h.print text
  | error failure => exact ⟨rfl, h⟩

theorem bind {α β : Type} {m : SessionM Empty σ α} {f : α → SessionM Empty σ β} {s t : Session Empty σ}
    (hm : SameEnd view (m s) (m t)) (hf : ∀ a u v, u.Alike view v → SameEnd view (f a u) (f a v)) :
    SameEnd view ((m >>= f) s) ((m >>= f) t) := by
  obtain ⟨hkind, hstate⟩ := hm
  rw [bind_apply, bind_apply]
  cases hs : m s with
  | ok a u =>
    cases ht : m t with
    | ok b v =>
      rw [hs, ht] at hkind hstate
      cases hkind
      exact hf a u v hstate
    | error => simp [hs, ht] at hkind
  | error failure u =>
    cases ht : m t with
    | ok => simp [hs, ht] at hkind
    | error failed v =>
      rw [hs, ht] at hkind hstate
      exact ⟨by simpa using hkind, hstate⟩

theorem perform (h : s.Alike view t) (e : Primitive.Effect) :
    SameEnd view (e.perform s) (e.perform t) := by
  obtain ⟨held, text, left, exits⟩ := e
  have hheld : { s with stack := held }.Alike view { t with stack := held } :=
    ⟨rfl, h.dictionary, h.output, h.exiting⟩
  have hleft (u v : Session Empty σ) (huv : u.Alike view v) :
      { u with stack := left, exiting := exits || u.exiting }.Alike view
        { v with stack := left, exiting := exits || v.exiting } :=
    ⟨rfl, huv.dictionary, huv.output, congrArg (exits || ·) huv.exiting⟩
  cases text with
  | none => exact ⟨rfl, hleft _ _ hheld⟩
  | some text =>
    rw [Primitive.Effect.perform, modify_bind_apply, modify_bind_apply]
    exact bind (hheld.print text) fun _ u v huv => ⟨rfl, hleft u v huv⟩

theorem run (h : s.Alike view t) {p : Primitive} (hcolon : p ≠ .colon) (hcomment : p ≠ .comment)
    (define : SessionM Empty σ Unit) (name : String) :
    SameEnd view (p.run define name s) (p.run define name t) := by
  by_cases hd : p = .dotDictionary
  · subst hd
    change SameEnd view (Session.printOrFail s.dictionary.listing s)
      (Session.printOrFail t.dictionary.listing t)
    rw [h.dictionary.listing]
    exact h.printOrFail _
  · have hp : p.WorksOnStack := ⟨hd, hcomment, hcolon⟩
    rw [Primitive.run_eq_perform hp, Primitive.run_eq_perform hp, h.stack]
    exact h.perform _

theorem install (h : s.Alike view t) {name other : Token} (hname : name.Alike view other)
    (steps : List (Step Empty)) :
    SameEnd view (Forth.install name.location name.text steps s)
      (Forth.install other.location other.text steps t) := by
  refine ⟨rfl, h.stack, h.dictionary.define ?_, h.output, h.exiting⟩
  simp [Word.seen, hname.text, hname.location]

end Session.Alike

/-- A primitive that reads nothing leaves the source as it is. -/
theorem Primitive.source_run {p : Primitive} (hcolon : p ≠ .colon) (hcomment : p ≠ .comment)
    (define : SessionM Empty σ Unit) (name : String) (s : Session Empty σ) :
    (p.run define name s).state.source = s.source := by
  by_cases hd : p = .dotDictionary
  · subst hd
    change (Session.printOrFail s.dictionary.listing s).state.source = s.source
    rw [Session.printOrFail, state_onOutput]
  · rw [run_eq_perform ⟨hd, hcomment, hcolon⟩]
    obtain ⟨stack, output, exiting, h⟩ := (p.effect name s.stack).state_perform s
    rw [h]

end Forth
