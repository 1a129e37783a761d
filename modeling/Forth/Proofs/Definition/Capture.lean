import Forth.Proofs.Definition.Reading
import Forth.Proofs.Dictionary.Proper
import Forth.Proofs.Primitive.Frame
import Forth.Proofs.Session.Compilation
import Forth.Proofs.Session.Invariant

/-! # What a definition captures

While a body is read nothing but comments is run, so the dictionary stays as it
was when the definition began. The steps of the new word are what its tokens
referred to then. This needs no more than that every immediate word is a
comment, whatever it is called.
-/

namespace Forth

open Session

variable {κ σ : Type} {d : Dictionary (Behavior κ)}

/-- The session has that dictionary. -/
def Session.Has (d : Dictionary (Behavior κ)) (s : Session κ σ) : Prop := s.dictionary = d

section Keeps

variable {define : SessionM κ σ Unit} {host : Host κ σ} {t : Token} {w : Word (Behavior κ)}

theorem keeps_nextToken (d : Dictionary (Behavior κ)) :
    Keeps (Session.Has d) (nextToken : SessionM κ σ (Option Token)) := by
  intro s hs
  rw [nextToken, state_onSource]
  exact hs

theorem keeps_executeWith (hb : w.behavior = .primitive .comment) (location : Location) :
    Keeps (Session.Has d) (Word.executeWith define host location w) := by
  intro s hs
  rw [Word.executeWith, modify_bind_apply, hb]
  obtain ⟨stack, source, output, exiting, -, h⟩ :=
    Primitive.state_run (p := .comment) (by decide) define w.name { s with current := some location }
  change ((Primitive.comment).run define w.name _).state.Has d
  rw [h]
  exact hs

theorem keeps_skipToken (hd : d.OnlyComments) (t : Token) :
    Keeps (Session.Has d) (skipToken (Word.executeWith define host) t) := by
  intro s hs
  rw [skipToken, get_bind_apply]
  cases hw : s.dictionary.resolve t with
  | none => exact hs
  | some w =>
    simp only
    split
    · rename_i hi
      have hb := hd.behavior_of_immediate (hs ▸ hw) hi
      exact (keeps_executeWith hb t.location).attempt.bind (fun _ => .pure ()) s hs
    · exact hs

theorem keeps_skipBody (hd : d.OnlyComments) (truncated : Failure) (bound : Nat) :
    Keeps (Session.Has d) (skipBody (Word.executeWith define host) truncated bound) := by
  induction bound with
  | zero => exact .throw truncated
  | succ bound ih =>
    rw [skipBody]
    refine (keeps_nextToken d).bind fun token => ?_
    cases token with
    | none => exact .throw truncated
    | some t =>
      simp only
      split
      · exact .pure ()
      · exact (keeps_skipToken hd t).bind fun _ => ih

theorem keeps_compileToken (hd : d.OnlyComments) (t : Token) :
    Keeps (Session.Has d) (compileToken (Word.executeWith define host) t) := by
  intro s hs
  rw [compileToken, get_bind_apply]
  cases hw : s.dictionary.resolve t with
  | none => exact hs
  | some w =>
    simp only
    split
    · rename_i hi
      have hb := hd.behavior_of_immediate (hs ▸ hw) hi
      exact (keeps_executeWith hb t.location).bind (fun _ => .pure none) s hs
    · exact hs

theorem keeps_compileBody (hd : d.OnlyComments) (truncated : Failure) (bound : Nat) :
    Keeps (Session.Has d) (compileBody (Word.executeWith define host) truncated bound) := by
  induction bound with
  | zero => exact .throw truncated
  | succ bound ih =>
    rw [compileBody]
    refine (keeps_nextToken d).bind fun token => ?_
    cases token with
    | none => exact .throw truncated
    | some t =>
      simp only
      split
      · exact .pure []
      · refine (keeps_compileToken hd t).attempt.bind fun answer => ?_
        cases answer with
        | ok step => exact ih.bind fun _ => .pure _
        | error failure => exact (keeps_skipBody hd truncated bound).bind fun _ => .throw failure

theorem keeps_compileTokens {host : Host κ σ} (hd : d.OnlyComments) (body : List Token) :
    Keeps (Session.Has d) (compileTokens host body) := by
  induction body with
  | nil => exact .pure []
  | cons t rest ih =>
    exact (keeps_compileToken hd t).bind fun _ => ih.bind fun _ => .pure _

end Keeps

section Captures

variable {define : SessionM κ σ Unit} {host : Host κ σ} {s u : Session κ σ}

theorem ok_of_attempt {α : Type} {m : SessionM κ σ α} {a : α}
    (h : attempt m s = .ok (.ok a) u) : m s = .ok a u := by
  obtain ⟨b, v, hm, ha⟩ | ⟨failure, v, -, -, ha⟩ | ⟨failure, v, -, -, ha⟩ := attempt_cases m s
  · rw [h] at ha
    cases ha
    exact hm
  · rw [h] at ha
    cases ha
  · rw [h] at ha
    cases ha

theorem holds_of_compileToken {execute : Execute κ σ} {t : Token} {step : Step κ}
    (h : compileToken execute t s = .ok (some step) u) : s.dictionary.Holds step := by
  rw [compileToken, get_bind_apply] at h
  cases hw : s.dictionary.resolve t with
  | none =>
    rw [hw] at h
    cases h
  | some w =>
    rw [hw] at h
    simp only at h
    split at h
    · obtain ⟨_, v, -, hv⟩ := bind_ok_cases h
      cases hv
    · cases h
      exact ⟨t, w, hw, by simpa using ‹¬w.immediate = true›, rfl⟩

/-- Each step of a body is what a token referred to before the body was read. -/
theorem holds_of_compileBody (hd : s.dictionary.OnlyComments) {truncated : Failure} {bound : Nat}
    {steps : List (Step κ)}
    (h : compileBody (Word.executeWith define host) truncated bound s = .ok steps u) :
    ∀ step ∈ steps, s.dictionary.Holds step := by
  induction bound generalizing s steps with
  | zero => cases h
  | succ bound ih =>
    rw [compileBody] at h
    obtain ⟨token, v, hread, h⟩ := bind_ok_cases h
    have hv : v.dictionary = s.dictionary := (keeps_nextToken s.dictionary).of_ok hread rfl
    cases token with
    | none => cases h
    | some t =>
      simp only at h
      split at h
      · cases h
        exact List.forall_mem_nil _
      · obtain ⟨answer, x, hattempt, h⟩ := bind_ok_cases h
        have hx : x.dictionary = s.dictionary :=
          (keeps_compileToken hd t).attempt.of_ok hattempt hv
        cases answer with
        | error failure =>
          obtain ⟨_, y, -, h⟩ := bind_ok_cases h
          cases h
        | ok first =>
          obtain ⟨rest, y, hrest, h⟩ := bind_ok_cases h
          cases h
          intro step hstep
          rcases List.mem_append.mp hstep with hfirst | hlater
          · obtain rfl := Option.mem_toList.mp hfirst
            rw [← hv]
            exact holds_of_compileToken (ok_of_attempt hattempt)
          · rw [← hx]
            exact ih (hx ▸ hd) hrest step hlater

theorem holds_of_compileTokens {host : Host κ σ} (hd : s.dictionary.OnlyComments)
    {body : List Token} {steps : List (Step κ)} (h : compileTokens host body s = .ok steps u) :
    (∀ step ∈ steps, s.dictionary.Holds step) ∧
      ∀ t ∈ body, ∀ w, s.dictionary.resolve t = some w → w.immediate = false →
        (w.behavior, t.text) ∈ steps := by
  induction body generalizing s steps with
  | nil =>
    cases h
    exact ⟨nofun, nofun⟩
  | cons t rest ih =>
    rw [compileTokens] at h
    obtain ⟨first, v, hfirst, h⟩ := bind_ok_cases h
    obtain ⟨later, x, hlater, h⟩ := bind_ok_cases h
    cases h
    have hv : v.dictionary = s.dictionary := (keeps_compileToken hd t).of_ok hfirst rfl
    obtain ⟨hholds, hall⟩ := ih (hv ▸ hd) hlater
    rw [hv] at hholds hall
    constructor
    · intro step hstep
      rcases List.mem_append.mp hstep with hmem | hmem
      · obtain rfl := Option.mem_toList.mp hmem
        exact holds_of_compileToken hfirst
      · exact hholds step hmem
    · intro y hy w hw hn
      rcases List.mem_cons.mp hy with rfl | hy
      · rw [compileToken_of_normal _ hw hn] at hfirst
        cases hfirst
        rw [Dictionary.name_eq_of_resolve hw]
        exact List.mem_cons_self
      · exact List.mem_append_right _ (hall y hy w hw hn)

end Captures

/-- The word is one that a definition makes under the dictionary. -/
structure Word.CompiledFrom (d : Dictionary (Behavior κ)) (w : Word (Behavior κ)) : Prop where
  normal : w.immediate = false
  scripted : w.kind = .scripted
  steps : ∃ steps, w.behavior = .compiled steps ∧ ∀ step ∈ steps, d.Holds step

theorem Word.CompiledFrom.proper {w : Word (Behavior κ)} (h : w.CompiledFrom d) (hd : d.Proper) :
    w.Proper := by
  obtain ⟨steps, hb, hsteps⟩ := h.steps
  refine .normal h.normal ?_
  rw [hb]
  exact .compiled fun step hstep => hd.commentFree (hsteps step hstep)

/-- The definition binds nothing and fails, or it binds one word. -/
inductive Binds (d : Dictionary (Behavior κ)) :
    EStateM.Result Failure (Session κ σ) Unit → Prop
  | failed {failure : Failure} {u : Session κ σ} : u.dictionary = d → Binds d (.error failure u)
  | bound {w : Word (Behavior κ)} {u : Session κ σ} : w.CompiledFrom d →
      u.dictionary = d.define w → Binds d (.ok () u)

namespace Binds

variable {r : EStateM.Result Failure (Session κ σ) Unit}

theorem dictionary_cases (h : Binds d r) :
    r.state.dictionary = d ∨ ∃ w, w.CompiledFrom d ∧ r.state.dictionary = d.define w := by
  cases h with
  | failed hu => exact .inl hu
  | bound hw hu => exact .inr ⟨_, hw, hu⟩

theorem proper (h : Binds d r) (hd : d.Proper) : r.state.dictionary.Proper := by
  obtain hr | ⟨w, hw, hr⟩ := h.dictionary_cases
  · rw [hr]
    exact hd
  · rw [hr]
    exact hd.define (hw.proper hd)

end Binds

theorem binds_install {s : Session κ σ} (location : Location) (name : String)
    {steps : List (Step κ)} (hs : s.dictionary = d) (hsteps : ∀ step ∈ steps, d.Holds step) :
    Binds d (install location name steps s) := by
  subst hs
  exact .bound ⟨rfl, rfl, steps, rfl, hsteps⟩ rfl

theorem binds_define (host : Host κ σ) {s : Session κ σ} (hd : s.dictionary.OnlyComments) :
    Binds s.dictionary (define host s) := by
  rw [define_eq]
  have hname := keeps_nextToken (σ := σ) s.dictionary s rfl
  cases hread : nextToken s with
  | error failure t =>
    rw [hread] at hname
    rw [bind_of_error hread]
    exact .failed hname
  | ok token t =>
    rw [hread] at hname
    rw [bind_of_ok hread]
    have ht : t.dictionary = s.dictionary := hname
    cases token with
    | none => exact .failed ht
    | some name =>
      let bound := s.source.unread.length + s.source.reserve
      let execute := Word.executeWith (defineWithin host bound) host
      have hbody : (compileBody execute s.truncated bound t).state.Has s.dictionary :=
        keeps_compileBody hd s.truncated bound t ht
      change Binds s.dictionary
        ((do
          let steps ← compileBody execute s.truncated bound
          install name.location name.text steps : SessionM κ σ Unit) t)
      rw [bind_apply]
      cases hcompile : compileBody execute s.truncated bound t with
      | error failure v =>
        rw [hcompile] at hbody
        exact .failed hbody
      | ok steps v =>
        rw [hcompile] at hbody
        exact binds_install _ _ hbody (ht ▸ holds_of_compileBody (ht ▸ hd) hcompile)

theorem binds_defineFromTokens (host : Host κ σ) {s : Session κ σ}
    (hd : s.dictionary.OnlyComments) (place : Location) (name : String) (body : List Token) :
    Binds s.dictionary (defineFromTokens host place name body s) := by
  have hbody : (compileTokens host body s).state.Has s.dictionary :=
    keeps_compileTokens hd body s rfl
  rw [defineFromTokens, bind_apply]
  cases hcompile : compileTokens host body s with
  | error failure u =>
    rw [hcompile] at hbody
    exact .failed hbody
  | ok steps u =>
    rw [hcompile] at hbody
    exact binds_install _ _ hbody (holds_of_compileTokens hd hcompile).1

end Forth
