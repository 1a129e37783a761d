import Forth.Proofs.Behavior.BuiltFrom
import Forth.Proofs.Definition.Reading
import Forth.Session.Run
import Mathlib.Logic.Function.Iterate

/-! # A run, one step at a time

The machine works on a source without any bound on what it does. In one step it
reads a token, invokes a behavior that is no replay, or goes on with what waits
for an answer. What waits are the replays and the definitions that have begun.
-/

namespace Forth

open Session

variable {σ : Type}

/-- What goes on once an invocation has given its answer. -/
inductive Frame where
  | replay (rest : List (Step Empty))
  | compile (truncated : Failure) (name : Token) (steps : List (Step Empty))
  | skip (truncated failure : Failure)

inductive Machine (σ : Type) where
  /-- The run is about to flush its output and to read a token. -/
  | turn (s : Session Empty σ)
  | invoke (b : Behavior Empty) (name : String) (frames : List Frame) (s : Session Empty σ)
  | answer (a : Except Failure Unit) (frames : List Frame) (s : Session Empty σ)
  | ended (r : EStateM.Result Failure (Session Empty σ) Ending)

namespace Machine

def session : Machine σ → Session Empty σ
  | turn s | invoke _ _ _ s | answer _ _ s => s
  | ended r => r.state

def frames : Machine σ → List Frame
  | turn _ | ended _ => []
  | invoke _ _ frames _ | answer _ frames _ => frames

def answering (frames : List Frame) (r : EStateM.Result Failure (Session Empty σ) Unit) :
    Machine σ :=
  answer r.answer frames r.state

def read (truncated : Failure) (frames : List Frame) (s : Session Empty σ)
    (found : Token → Session Empty σ → Machine σ) : Machine σ :=
  match nextToken s with
  | .error failure t => answer (.error failure) frames t
  | .ok none t => answer (.error truncated) frames t
  | .ok (some token) t => found token t

def execute (t : Token) (w : Word (Behavior Empty)) (frames : List Frame) (s : Session Empty σ) :
    Machine σ :=
  invoke w.behavior w.name frames { s with current := some t.location }

def takeToken (t : Token) (s : Session Empty σ) : Machine σ :=
  match s.dictionary.resolve t with
  | none => answer (.error t.unknown) [] s
  | some w => execute t w [] s

def takeTurn (s : Session Empty σ) : Machine σ :=
  match flush s with
  | .error failure t => ended (.error failure t)
  | .ok () t =>
    if t.exiting then ended (.ok .terminated t)
    else
      match nextToken t with
      | .error failure u => ended (.error failure u)
      | .ok none u => ended (.ok .endOfInput u)
      | .ok (some token) u => takeToken token u

/-- The machine once a token has been evaluated. -/
def evaluated : EStateM.Result Failure (Session Empty σ) Unit → Machine σ
  | .ok _ s => turn s
  | .error failure s => ended (.error failure s)

def conclude (a : Except Failure Unit) (s : Session Empty σ) : Machine σ :=
  match a with
  | .ok () => turn s
  | .error failure =>
    if failure.isFatal then ended (.error failure s)
    else evaluated (print s!"{failure.cause.text}\n" s)

/-- Begins an invocation. A definition begins with its name. -/
def start (name : String) (frames : List Frame) (s : Session Empty σ) :
    Behavior Empty → Machine σ
  | .primitive .colon =>
    read s.truncated frames s fun name t =>
      answer (.ok ()) (.compile s.truncated name [] :: frames) t
  | .primitive p => answering frames (p.run (pure ()) name s)
  | .literal v => answering frames (push v s)
  | .compiled steps => answer (.ok ()) (.replay steps :: frames) s

def replay (frames : List Frame) (s : Session Empty σ) : List (Step Empty) → Machine σ
  | [] => answer (.ok ()) frames s
  | (b, name) :: rest =>
    if s.exiting then answer (.ok ()) frames s
    else invoke b name (.replay rest :: frames) s

def compile (truncated : Failure) (name : Token) (steps : List (Step Empty)) (frames : List Frame)
    (t : Token) (s : Session Empty σ) : Machine σ :=
  if t.text = endOfDefinition then answering frames (install name.location name.text steps s)
  else
    match s.dictionary.resolve t with
    | none => answer (.error t.unknown) (.compile truncated name steps :: frames) s
    | some w =>
      if w.immediate then execute t w (.compile truncated name steps :: frames) s
      else answer (.ok ()) (.compile truncated name (steps ++ [(w.behavior, w.name)]) :: frames) s

def skip (truncated failure : Failure) (frames : List Frame) (t : Token) (s : Session Empty σ) :
    Machine σ :=
  if t.text = endOfDefinition then answer (.error failure) frames s
  else
    match s.dictionary.resolve t with
    | none => answer (.ok ()) (.skip truncated failure :: frames) s
    | some w =>
      if w.immediate then execute t w (.skip truncated failure :: frames) s
      else answer (.ok ()) (.skip truncated failure :: frames) s

def resume (frames : List Frame) (s : Session Empty σ) : Frame → Machine σ
  | .replay rest => replay frames s rest
  | .compile truncated name steps =>
    read truncated frames s (compile truncated name steps frames)
  | .skip truncated failure => read truncated frames s (skip truncated failure frames)

/-- A replay passes on every failure, a definition only the fatal ones. -/
def fail (failure : Failure) (frames : List Frame) (s : Session Empty σ) : Frame → Machine σ
  | .replay _ => answer (.error failure) frames s
  | .compile truncated _ _ =>
    if failure.isFatal then answer (.error failure) frames s
    else answer (.ok ()) (.skip truncated failure :: frames) s
  | .skip truncated first =>
    if failure.isFatal then answer (.error failure) frames s
    else answer (.ok ()) (.skip truncated first :: frames) s

def step : Machine σ → Machine σ
  | turn s => takeTurn s
  | invoke b name frames s => start name frames s b
  | answer a [] s => conclude a s
  | answer (.ok ()) (frame :: frames) s => resume frames s frame
  | answer (.error failure) (frame :: frames) s => fail failure frames s frame
  | ended r => ended r

theorem start_primitive {p : Primitive} (hp : p ≠ .colon) (name : String) (frames : List Frame)
    (s : Session Empty σ) :
    start name frames s (.primitive p) = answering frames (p.run (pure ()) name s) := by
  cases p with
  | colon => exact absurd rfl hp
  | _ => rfl

theorem iterate_ended (n : Nat) (r : EStateM.Result Failure (Session Empty σ) Ending) :
    step^[n] (ended r) = ended r :=
  Function.iterate_fixed rfl n

/-- A run ends in one way only. -/
theorem ended_unique {m : Machine σ} {i j : Nat}
    {x y : EStateM.Result Failure (Session Empty σ) Ending} (hx : step^[i] m = .ended x)
    (hy : step^[j] m = .ended y) : x = y := by
  have hlater : step^[j + i] m = .ended x := by
    rw [Function.iterate_add_apply, hx, iterate_ended]
  rw [Nat.add_comm, Function.iterate_add_apply, hy, iterate_ended] at hlater
  cases hlater
  rfl

/-- In `n` steps the one machine becomes the other, and all of those before satisfy `P`. -/
def Comes (P : Machine σ → Prop) (n : Nat) (m k : Machine σ) : Prop :=
  step^[n] m = k ∧ ∀ i < n, P (step^[i] m)

namespace Comes

variable {P Q : Machine σ → Prop} {a b n : Nat} {k l m : Machine σ}

theorem refl (m : Machine σ) : Comes P 0 m m :=
  ⟨rfl, fun _ hi => absurd hi (Nat.not_lt_zero _)⟩

theorem cons (hm : P m) (h : Comes P n (step m) k) : Comes P (n + 1) m k := by
  refine ⟨h.1, fun i hi => ?_⟩
  cases i with
  | zero => exact hm
  | succ i => exact h.2 i (Nat.lt_of_succ_lt_succ hi)

theorem trans (h : Comes P a m k) (hk : Comes P b k l) : Comes P (a + b) m l := by
  have hsplit (j : Nat) : step^[j + a] m = step^[j] k := by
    rw [Function.iterate_add_apply, h.1]
  constructor
  · rw [Nat.add_comm, hsplit, hk.1]
  · intro i hi
    by_cases hlt : i < a
    · exact h.2 i hlt
    · obtain ⟨j, rfl⟩ : ∃ j, i = j + a := ⟨i - a, by omega⟩
      rw [hsplit]
      exact hk.2 j (by omega)

theorem mono (hPQ : ∀ m, P m → Q m) (h : Comes P n m k) : Comes Q n m k :=
  ⟨h.1, fun i hi => hPQ _ (h.2 i hi)⟩

end Comes

end Machine

end Forth
