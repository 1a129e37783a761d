import Forth.Proofs.Machine.Basic
import Forth.Proofs.Primitive.Frame

/-! # What a step of the machine does to the session

What every action of a run does to a session, a step does. No step puts anything
back into the source, and none makes a word immediate. Reading a token takes at
least one character.
-/

namespace Forth

namespace Item

theorem chars_word_ne_nil {items : List Item} (h : word items ≠ []) : chars (word items) ≠ [] := by
  obtain hd | ⟨reason, rest, hd⟩ | ⟨c, rest, hd, hc⟩ := Source.dropWhile_isGap_cases items
  · rw [word, hd] at h
    exact absurd rfl h
  · rw [word, hd] at h
    exact absurd rfl h
  · have hword : word items = char c :: rest.takeWhile isInk := by
      rw [word, hd, List.takeWhile_cons_of_pos (by simp [isInk, hc])]
    rw [hword]
    exact List.cons_ne_nil c _

end Item

namespace Source

theorem Moved.suffix {s t : Source} (h : Moved s t) : t.unread <:+ s.unread := by
  obtain ⟨taken, hs, -⟩ := h
  exact ⟨taken, hs.symm⟩

theorem Met.suffix {s t : Source} {failure : Failure} (h : Met s failure t) :
    t.unread <:+ s.unread := by
  obtain ⟨u, reason, hu, hr, -⟩ := h
  exact (hr ▸ List.suffix_cons _ _).trans hu.suffix

theorem suffix_nextToken (s : Source) : (nextToken s).state.unread <:+ s.unread := by
  cases h : nextToken s with
  | ok token t => exact (moved_of_nextToken h).suffix
  | error failure t => exact (met_of_nextToken h).suffix

theorem suffix_restOfLine (s : Source) : (restOfLine s).state.unread <:+ s.unread := by
  cases h : restOfLine s with
  | ok line t => exact (moved_of_restOfLine h).suffix
  | error failure t => exact (met_of_restOfLine h).suffix

def unreadChars (s : Source) : Nat := (Item.chars s.unread).length

theorem unreadChars_le {s t : Source} (h : t.unread <:+ s.unread) :
    t.unreadChars ≤ s.unreadChars :=
  (h.sublist.filterMap Item.char?).length_le

theorem unreadChars_lt_of_nextToken {s t : Source} {token : Token}
    (h : nextToken s = .ok (some token) t) : t.unreadChars < s.unreadChars := by
  have hword := List.length_pos_iff.mpr (Item.chars_word_ne_nil (word_ne_nil_of_nextToken h))
  have hall := congrArg (fun items => (Item.chars items).length)
    (Item.gap_append_word_append_afterWord s.unread)
  simp only [Item.chars_append, List.length_append] at hall
  obtain ⟨-, rfl⟩ := eq_of_nextToken h
  change (Item.chars (Item.afterWord s.unread)).length < (Item.chars s.unread).length
  omega

end Source

open Session

variable {σ : Type} {s t u : Session Empty σ}

/-- What a session can become: it has read on, and no other word has become immediate. -/
structure Session.Onward (s t : Session Empty σ) : Prop where
  unread : t.source.unread <:+ s.source.unread
  standard : s.dictionary.Standard → t.dictionary.Standard

/-- The relation holds between a session and what it becomes in a run, the primitives apart. -/
structure Session.Steps (R : Session Empty σ → Session Empty σ → Prop) : Prop where
  refl : ∀ s, R s s
  trans : ∀ {s t u}, R s t → R t u → R s u
  nextToken : ∀ s, R s (nextToken s).state
  flush : ∀ s, R s (flush s).state
  print : ∀ text s, R s (print text s).state
  place : ∀ s place, R s { s with current := some place }
  push : ∀ v s, R s (push v s).state
  install : ∀ location name steps s, R s (install location name steps s).state

namespace Session.Onward

theorem steps : Session.Steps (Onward : Session Empty σ → Session Empty σ → Prop) where
  refl s := ⟨List.suffix_rfl, id⟩
  trans h k := ⟨k.unread.trans h.unread, fun hs => k.standard (h.standard hs)⟩
  nextToken s := by
    rw [Session.nextToken, state_onSource]
    exact ⟨Source.suffix_nextToken s.source, id⟩
  flush s := by
    rw [Session.flush, state_onOutput]
    exact ⟨List.suffix_rfl, id⟩
  print text s := by
    rw [Session.print, state_onOutput]
    exact ⟨List.suffix_rfl, id⟩
  place _ _ := ⟨List.suffix_rfl, id⟩
  push _ _ := ⟨List.suffix_rfl, id⟩
  install _ _ _ _ := ⟨List.suffix_rfl, fun hs => hs.define ⟨nofun, nofun⟩⟩

theorem primitive {p : Primitive} (hp : p ≠ .colon) (define : SessionM Empty σ Unit)
    (name : String) (s : Session Empty σ) : Onward s (p.run define name s).state := by
  obtain ⟨stack, source, output, exiting, hsource, h⟩ := Primitive.state_run hp define name s
  rw [h]
  refine ⟨?_, id⟩
  rcases hsource with rfl | rfl
  · exact List.suffix_rfl
  · exact Source.suffix_restOfLine s.source

end Session.Onward

namespace Machine

section Steps

variable {R : Session Empty σ → Session Empty σ → Prop}

def After (R : Session Empty σ → Session Empty σ → Prop) (s : Session Empty σ) (m : Machine σ) :
    Prop :=
  R s m.session

variable {frames : List Frame} {truncated : Failure}

theorem after_read (hR : Steps R) {found : Token → Session Empty σ → Machine σ}
    (hfound : ∀ token t, R s t → After R s (found token t)) :
    After R s (read truncated frames s found) := by
  have hs := hR.nextToken s
  rw [read]
  cases h : nextToken s with
  | error failure t =>
    rw [h] at hs
    exact hs
  | ok token t =>
    rw [h] at hs
    cases token with
    | none => exact hs
    | some token => exact hfound token t hs

theorem after_compile (hR : Steps R) (name : Token) (steps : List (Step Empty)) (token : Token)
    (h : R s t) : After R s (compile truncated name steps frames token t) := by
  rw [compile]
  split
  · exact hR.trans h (hR.install ..)
  · split
    · exact h
    · split
      · exact hR.trans h (hR.place ..)
      · exact h

theorem after_skip (hR : Steps R) (failure : Failure) (token : Token) (h : R s t) :
    After R s (skip truncated failure frames token t) := by
  rw [skip]
  split
  · exact h
  · split
    · exact h
    · split
      · exact hR.trans h (hR.place ..)
      · exact h

theorem after_takeToken (hR : Steps R) (token : Token) (h : R s t) :
    After R s (takeToken token t) := by
  rw [takeToken]
  split
  · exact h
  · exact hR.trans h (hR.place ..)

theorem after_takeTurn (hR : Steps R) (s : Session Empty σ) : After R s (takeTurn s) := by
  have hflush := hR.flush s
  rw [takeTurn]
  cases hf : flush s with
  | error failure t =>
    rw [hf] at hflush
    exact hflush
  | ok _ t =>
    rw [hf] at hflush
    have hread := hR.trans hflush (hR.nextToken t)
    simp only
    split
    · exact hflush
    · cases hn : nextToken t with
      | error failure u =>
        rw [hn] at hread
        exact hread
      | ok token u =>
        rw [hn] at hread
        cases token with
        | none => exact hread
        | some token => exact after_takeToken hR token hread

theorem after_conclude (hR : Steps R) (a : Except Failure Unit) (s : Session Empty σ) :
    After R s (conclude a s) := by
  cases a with
  | ok => exact hR.refl s
  | error failure =>
    rw [conclude]
    split
    · exact hR.refl s
    · have hs := hR.print s!"{failure.cause.text}\n" s
      cases h : print s!"{failure.cause.text}\n" s with
      | ok | error =>
        rw [h] at hs
        exact hs

theorem after_start (hR : Steps R) (name : String) (frames : List Frame) (s : Session Empty σ)
    (b : Behavior Empty)
    (hprimitive : ∀ p, b = .primitive p → p ≠ .colon → R s (p.run (pure ()) name s).state) :
    After R s (start name frames s b) := by
  fun_cases start name frames s b with
  | case1 => exact after_read hR fun _ _ h => h
  | case2 p hp => exact hprimitive p rfl fun h => hp (h ▸ rfl)
  | case3 v => exact hR.push v s
  | case4 steps => exact hR.refl s

theorem after_replay (hR : Steps R) (frames : List Frame) (s : Session Empty σ)
    (steps : List (Step Empty)) : After R s (replay frames s steps) := by
  cases steps with
  | nil => exact hR.refl s
  | cons step rest =>
    rw [replay]
    split <;> exact hR.refl s

theorem after_resume (hR : Steps R) (frames : List Frame) (s : Session Empty σ) (frame : Frame) :
    After R s (resume frames s frame) := by
  cases frame with
  | replay rest => exact after_replay hR frames s rest
  | compile truncated name steps =>
    exact after_read hR fun token _ h => after_compile hR name steps token h
  | skip truncated failure =>
    exact after_read hR fun token _ h => after_skip hR failure token h

theorem after_fail (hR : Steps R) (failure : Failure) (frames : List Frame) (s : Session Empty σ)
    (frame : Frame) : After R s (fail failure frames s frame) := by
  fun_cases fail failure frames s frame <;> exact hR.refl s

theorem session_step (hR : Steps R) (m : Machine σ)
    (hprimitive : ∀ p name frames s, m = invoke (.primitive p) name frames s → p ≠ .colon →
      R s (p.run (pure ()) name s).state) : R m.session (step m).session := by
  fun_cases step m with
  | case1 s => exact after_takeTurn hR s
  | case2 b name frames s =>
    exact after_start hR name frames s b fun p hb hp => hprimitive p name frames s (hb ▸ rfl) hp
  | case3 a s => exact after_conclude hR a s
  | case4 frame frames s => exact after_resume hR frames s frame
  | case5 failure frame frames s => exact after_fail hR failure frames s frame
  | case6 r => exact hR.refl r.state

end Steps

theorem onward_step (m : Machine σ) : m.session.Onward (step m).session :=
  session_step Onward.steps m fun _ name _ s _ hp => .primitive hp (pure ()) name s

theorem onward_iterate (n : Nat) (m : Machine σ) : m.session.Onward (step^[n] m).session := by
  induction n generalizing m with
  | zero => exact Onward.steps.refl m.session
  | succ n ih => exact Onward.steps.trans (onward_step m) (ih (step m))

/-- A turn takes at least one character, or the run has ended. -/
theorem takeTurn_cases (s : Session Empty σ) :
    (∃ r, takeTurn s = ended r) ∨
      (takeTurn s).session.source.unreadChars < s.source.unreadChars := by
  rw [takeTurn]
  cases hf : flush s with
  | error failure t => exact .inl ⟨_, rfl⟩
  | ok _ t =>
    obtain ⟨o, -, rfl⟩ := exists_of_onOutput_ok hf
    simp only
    split
    · exact .inl ⟨_, rfl⟩
    · cases hn : nextToken { s with output := o } with
      | error failure u => exact .inl ⟨_, rfl⟩
      | ok token u =>
        cases token with
        | none => exact .inl ⟨_, rfl⟩
        | some token =>
          obtain ⟨source, hsource, rfl⟩ := exists_of_onSource_ok hn
          have hlt := Source.unreadChars_lt_of_nextToken hsource
          have hafter := after_takeToken Onward.steps token
            (Onward.steps.refl { s with source, output := o })
          exact .inr ((Source.unreadChars_le hafter.unread).trans_lt hlt)

/-- From one turn of a run to another there are fewer characters to read. -/
theorem unreadChars_lt_of_turn {m : Machine σ} {i j : Nat} (hij : i < j)
    (hi : step^[i] m = turn s) (hj : step^[j] m = turn t) :
    t.source.unreadChars < s.source.unreadChars := by
  obtain ⟨n, rfl⟩ : ∃ n, j = n + 1 + i := ⟨j - i - 1, by omega⟩
  rw [Function.iterate_add_apply, hi, Function.iterate_succ_apply] at hj
  change step^[n] (takeTurn s) = turn t at hj
  obtain ⟨r, hr⟩ | hlt := takeTurn_cases s
  · rw [hr, iterate_ended] at hj
    cases hj
  · have hle := Source.unreadChars_le (onward_iterate n (takeTurn s)).unread
    rw [hj] at hle
    exact hle.trans_lt hlt

end Machine

end Forth
