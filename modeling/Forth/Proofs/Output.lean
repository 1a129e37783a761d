import Forth.Proofs.Action

/-! # Outputs that take everything -/

namespace Forth

namespace Output

theorem eq_closed_of_print {text : String} {o p : Output} {failure : Failure}
    (h : print text o = .error failure p) : failure = closed := by
  rw [print] at h
  cases hroom : o.room with
  | none => simp [hroom] at h
  | some room =>
    simp only [hroom] at h
    split at h
    · cases h
    · cases h
      rfl

def append (o : Output) (text : String) : Output :=
  { o with written := o.written ++ text.toUTF8 }

/-- No write fails and no flush that is still to come. -/
structure Reliable (o : Output) : Prop where
  unlimited : o.room = none
  flushes : ∀ n, o.failingFlush = some n → n ≤ o.flushes

theorem Reliable.append {o : Output} (h : o.Reliable) (text : String) : (o.append text).Reliable :=
  ⟨h.unlimited, h.flushes⟩

theorem Reliable.print {o : Output} (h : o.Reliable) (text : String) :
    print text o = .ok () (o.append text) := by
  simp only [Output.print, h.unlimited, Output.append]

theorem Reliable.flush {o : Output} (h : o.Reliable) :
    flush o = .ok () { o with flushes := o.flushes + 1 } := by
  have hne : o.failingFlush ≠ some (o.flushes + 1) := fun heq =>
    Nat.not_succ_le_self o.flushes (h.flushes _ heq)
  simp only [Output.flush, hne, if_false]

theorem Reliable.flushed {o : Output} (h : o.Reliable) :
    ({ o with flushes := o.flushes + 1 } : Output).Reliable :=
  ⟨h.unlimited, fun n hn => Nat.le_succ_of_le (h.flushes n hn)⟩

end Output

namespace Session

variable {κ σ : Type}

theorem print_of_reliable {s : Session κ σ} (h : s.output.Reliable) (text : String) :
    print text s = .ok () { s with output := s.output.append text } := by
  simp only [print, onOutput, h.print text]

theorem flush_of_reliable {s : Session κ σ} (h : s.output.Reliable) :
    flush s = .ok () { s with output := { s.output with flushes := s.output.flushes + 1 } } := by
  simp only [flush, onOutput, h.flush]

end Session

end Forth
