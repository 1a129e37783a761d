import Forth.Proofs.Session.Alike
import Forth.Proofs.Source.Spelling
import Forth.Proofs.Value.Printer
import Forth.Session.Run

/-! # Running what was printed

A token that names no word and spells a number pushes it. A source of such tokens
pushes them in their order and does nothing else, so values that were printed are
on the stack again after their texts were run.
-/

namespace Forth

open Session

section Literals

variable {κ σ : Type} {s : Session κ σ} {t : Token} {v : Value}

/-- After a number was read at a place. -/
def Session.pushedAt (s : Session κ σ) (place : Location) (v : Value) : Session κ σ :=
  { s with current := some place, stack := v :: s.stack }

theorem evaluate_of_literal (host : Host κ σ) (hname : s.dictionary.find? t.text = none)
    (hvalue : Value.ofText? t.text = some v) :
    evaluate host t s = .ok () (s.pushedAt t.location v) := by
  have hresolve : s.dictionary.resolve t = some (t.literalWord v) := by
    rw [Dictionary.resolve, hname, hvalue]
    rfl
  have hrun : runToken host t s = .ok () (s.pushedAt t.location v) := by
    rw [runToken, get_bind_apply, hresolve]
    rfl
  rw [evaluate, bind_of_ok (attempt_of_ok hrun)]
  rfl

section RunWithin

variable {host : Host κ σ} {bound : Nat} {u : Source}

/-- The session in front of the next token, where the run goes on. -/
def Session.turned (s : Session κ σ) (source : Source) : Session κ σ :=
  { s with output := s.output.flushed, source }

theorem nextToken_flushed {token : Option Token} (hn : Source.nextToken s.source = .ok token u) :
    nextToken { s with output := s.output.flushed } = .ok token (s.turned u) := by
  simp only [nextToken, onSource, hn, Session.turned]

theorem runWithin_of_end (hflush : s.output.Steady) (hexit : s.exiting = false)
    (hn : Source.nextToken s.source = .ok none u) :
    runWithin host (bound + 1) s = .ok .endOfInput (s.turned u) := by
  have hgoes : ¬s.exiting = true := by simp [hexit]
  rw [runWithin, bind_of_ok (flush_of_steady hflush), get_bind_apply, if_neg hgoes]
  exact bind_of_ok (nextToken_flushed hn)

theorem runWithin_of_token (hflush : s.output.Steady) (hexit : s.exiting = false)
    (hn : Source.nextToken s.source = .ok (some t) u) :
    runWithin host (bound + 1) s =
      (do evaluate host t; runWithin host bound : SessionM κ σ Ending) (s.turned u) := by
  have hgoes : ¬s.exiting = true := by simp [hexit]
  rw [runWithin, bind_of_ok (flush_of_steady hflush), get_bind_apply, if_neg hgoes]
  exact bind_of_ok (nextToken_flushed hn)

end RunWithin

/-- The token names no word and spells the number. -/
def Dictionary.Reads (d : Dictionary (Behavior κ)) (t : Token) (v : Value) : Prop :=
  d.find? t.text = none ∧ Value.ofText? t.text = some v

/-- The values were pushed. The output was flushed in front of each of them and at the end. -/
def Session.readBack (s : Session κ σ) (vs : List Value) (place : Option Location) :
    Session κ σ :=
  { s with
    stack := vs.reverse ++ s.stack
    current := place
    output := { s.output with flushes := s.output.flushes + vs.length + 1 } }

theorem readBack_cons (s : Session κ σ) (u : Source) (l : Location) (v : Value) (vs : List Value)
    (place : Option Location) :
    ((s.turned u).pushedAt l v).readBack vs place =
      { s.readBack (v :: vs) place with source := u } := by
  have hcount : s.output.flushes + 1 + vs.length + 1 = s.output.flushes + (vs.length + 1) + 1 := by
    omega
  simp [Session.readBack, Session.turned, Session.pushedAt, Output.flushed, hcount]

/-- By induction on the tokens, each of which takes one turn. -/
theorem runWithin_of_spells (host : Host κ σ) {tokens : List Token} {vs : List Value}
    (hread : List.Forall₂ s.dictionary.Reads tokens vs) (hspells : s.source.Spells tokens [])
    (hflush : s.output.Steady) (hexit : s.exiting = false) {bound : Nat}
    (hbound : tokens.length < bound) :
    ∃ place u, runWithin host bound s =
      .ok .endOfInput { s.readBack vs place with source := u } := by
  generalize hd : s.dictionary = d at hread
  induction hread generalizing s bound with
  | nil =>
    obtain ⟨bound, rfl⟩ := Nat.exists_eq_succ_of_ne_zero hbound.ne'
    exact ⟨s.current, _, runWithin_of_end hflush hexit hspells.nextToken_nil⟩
  | @cons t v tokens vs ht _ ih =>
    obtain ⟨bound, rfl⟩ := Nat.exists_eq_succ_of_ne_zero (Nat.ne_zero_of_lt hbound)
    obtain ⟨u, hn, hrest⟩ := hspells.nextToken
    obtain ⟨hname, hvalue⟩ := ht
    have heval : evaluate host t (s.turned u) = .ok () ((s.turned u).pushedAt t.location v) :=
      evaluate_of_literal host (hd ▸ hname) hvalue
    obtain ⟨place, u', hrun⟩ := ih (s := (s.turned u).pushedAt t.location v) hrest hflush.flushed
      hexit (Nat.lt_of_succ_lt_succ hbound) hd
    refine ⟨place, u', ?_⟩
    rw [runWithin_of_token hflush hexit hn, bind_of_ok heval, hrun, readBack_cons]

end Literals

section ReadBack

variable {κ σ : Type} {s : Session κ σ} {vs : List Value}

theorem forall₂_reads_render {d : Dictionary (Behavior κ)} {tokens : List Token}
    (htokens : tokens.map Token.text = vs.map Value.render) (hfinite : ∀ v ∈ vs, v.Finite)
    (hnames : ∀ v ∈ vs, d.find? v.render = none) : List.Forall₂ d.Reads tokens vs := by
  induction vs generalizing tokens with
  | nil =>
    rw [List.map_eq_nil_iff.mp htokens]
    exact .nil
  | cons v vs ih =>
    obtain ⟨t, tokens, rfl, ht, htokens⟩ := List.map_eq_cons_iff.mp htokens
    refine .cons ⟨?_, ?_⟩ (ih htokens (fun u hu => hfinite u (List.mem_cons_of_mem v hu))
      fun u hu => hnames u (List.mem_cons_of_mem v hu))
    · rw [ht]
      exact hnames v List.mem_cons_self
    · rw [ht]
      exact Value.ofText?_render_of_finite (hfinite v List.mem_cons_self)

/-- Values that were printed are read back as they were: each has its kind and its bits again.
What is no number and what is infinite is not read as a number. -/
theorem processText_render (host : Host κ σ) (path : String) (hfinite : ∀ v ∈ vs, v.Finite)
    (hnames : ∀ v ∈ vs, s.dictionary.find? v.render = none) (hexit : s.exiting = false)
    (hflush : s.output.Steady) :
    (∃ place, processText host path (" ".intercalate (vs.map Value.render)) s =
      .ok .endOfInput (s.readBack vs place)) ∧
    ∀ v : Value, ¬v.Finite → Value.ofText? v.render = none := by
  refine ⟨?_, fun v => Value.ofText?_render_of_not_finite⟩
  have hwords : ∀ w ∈ vs.map Value.render, Text.IsWord w := by
    intro w hw
    obtain ⟨v, hv, rfl⟩ := List.mem_map.mp hw
    exact Literal.notBlank_of_ofText? (Value.ofText?_render_of_finite (hfinite v hv))
  obtain ⟨tokens, hspells, htokens, hbound⟩ := Source.exists_spells_intercalate path hwords
  obtain ⟨place, u, hrun⟩ := runWithin_of_spells host
    (s := { s with source := .ofText path (" ".intercalate (vs.map Value.render)) })
    (forall₂_reads_render htokens hfinite hnames) hspells hflush hexit hbound
  refine ⟨place, ?_⟩
  rw [processText, runSource, run, get_bind_apply, hrun]
  simp only [Session.readBack, hexit]

/-- Among them a zero with a sign, a fraction, the first float that is written with an exponent,
and the integer of the same value. -/
theorem processText_render_mixed :
    let vs : List Value := [.int (-5), .float (.ofBits 0x8000000000000000),
      .float (.ofBits 0x4004000000000000), .float (.ofBits 0x4341C37937E08000),
      .int 10000000000000000]
    let s : Session Empty Unit :=
      { stack := [.int 7], dictionary := Dictionary.empty.definePrimitives, source := .ofText "" "",
        hostState := () }
    " ".intercalate (vs.map Value.render) = "-5 -0.0 2.5 1e16 10000000000000000" ∧
      (∀ v ∈ vs, v.Finite) ∧ (∀ v ∈ vs, s.dictionary.find? v.render = none) ∧
      s.exiting = false ∧ s.output.Steady ∧
      ∃ place, processText .none "" "-5 -0.0 2.5 1e16 10000000000000000" s =
        .ok .endOfInput (s.readBack vs place) := by
  intro vs s
  have htext : " ".intercalate (vs.map Value.render) = "-5 -0.0 2.5 1e16 10000000000000000" := by
    decide +kernel
  have hfinite : ∀ v ∈ vs, v.Finite := by decide +kernel
  have hnames : ∀ v ∈ vs, s.dictionary.find? v.render = none := by decide +kernel
  have hsteady : s.output.Steady := fun n hn => nomatch hn
  refine ⟨htext, hfinite, hnames, rfl, hsteady, ?_⟩
  have hread := (processText_render .none "" hfinite hnames rfl hsteady).1
  rwa [htext] at hread

end ReadBack

end Forth
