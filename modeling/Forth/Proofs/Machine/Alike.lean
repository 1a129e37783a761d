import Forth.Proofs.Machine.Agreement
import Forth.Proofs.Machine.Proper
import Forth.Proofs.Session.Alike

/-! # Two machines that do the same

Two machines that read different sources stay alike, step by step, as long as
each read finds alike tokens, or none, in both. What the sources have to do with
each other besides is left open here. It is said once for every place of a run,
and once for where a token was just read, which is the only place where a
comment takes the rest of a line.
-/

namespace Forth

open Session

variable {σ : Type}

structure Pairing where
  view : Location → Location
  idle : Source → Source → Prop
  /-- The sources when a token was just read. -/
  fresh : Source → Source → Prop
  idle_of_fresh : ∀ {a b}, fresh a b → idle a b
  line : ∀ {a b}, fresh a b → ∃ x y c d,
    Source.restOfLine a = .ok x c ∧ Source.restOfLine b = .ok y d ∧ idle c d

/-- Both sources give a token, or neither does. -/
inductive Pairing.Reads (P : Pairing) (a b : Source) : Prop
  | none {c d : Source} : Source.nextToken a = .ok none c → Source.nextToken b = .ok none d →
      P.idle c d → Reads P a b
  | token {t u : Token} {c d : Source} : Source.nextToken a = .ok (some t) c →
      Source.nextToken b = .ok (some u) d → t.Alike P.view u → P.fresh c d → Reads P a b

theorem Session.Alike.moved {view : Location → Location} {s t : Session Empty σ}
    (h : s.Alike view t) (a b : Source) (place other : Option Location) :
    { s with source := a, current := place }.Alike view
      { t with source := b, current := other } :=
  ⟨h.stack, h.dictionary, h.output, h.exiting⟩

inductive Frame.Alike (view : Location → Location) : Frame → Frame → Prop
  | replay (rest : List (Step Empty)) : Alike view (.replay rest) (.replay rest)
  | compile {truncated other : Failure} {name called : Token} (steps : List (Step Empty)) :
      truncated.cause = other.cause → name.Alike view called →
      Alike view (.compile truncated name steps) (.compile other called steps)
  | skip {truncated other failure failed : Failure} : truncated.cause = other.cause →
      failure.cause = failed.cause → Alike view (.skip truncated failure) (.skip other failed)

theorem Failure.isFatal_eq {failure other : Failure} (h : failure.cause = other.cause) :
    failure.isFatal = other.isFatal := by
  rw [isFatal, isFatal, h]

namespace Machine

variable {P : Pairing}

/-- Both are about to do the same. Only a comment needs a token that was just read. -/
inductive Alike (P : Pairing) : Machine σ → Machine σ → Prop
  | turn {s t : Session Empty σ} : s.Alike P.view t → P.idle s.source t.source →
      Alike P (turn s) (turn t)
  | invoke {b : Behavior Empty} {frames others : List Frame} {s t : Session Empty σ}
      (name : String) : s.Alike P.view t → List.Forall₂ (Frame.Alike P.view) frames others →
      P.idle s.source t.source → (b = .primitive .comment → P.fresh s.source t.source) →
      Alike P (invoke b name frames s) (invoke b name others t)
  | answer {a c : Except Failure Unit} {frames others : List Frame} {s t : Session Empty σ} :
      kind a = kind c → s.Alike P.view t → List.Forall₂ (Frame.Alike P.view) frames others →
      P.idle s.source t.source → Alike P (answer a frames s) (answer c others t)
  | ended {r q : EStateM.Result Failure (Session Empty σ) Ending} : SameEnd P.view r q →
      Alike P (ended r) (ended q)

/-- The next step reads a token. -/
inductive Reading : Machine σ → Prop
  | turn {s : Session Empty σ} : s.exiting = false → Reading (turn s)
  | name {word : String} {frames : List Frame} {s : Session Empty σ} :
      Reading (invoke (.primitive .colon) word frames s)
  | compile {truncated : Failure} {name : Token} {steps : List (Step Empty)} {frames : List Frame}
      {s : Session Empty σ} : Reading (answer (.ok ()) (.compile truncated name steps :: frames) s)
  | skip {truncated failure : Failure} {frames : List Frame} {s : Session Empty σ} :
      Reading (answer (.ok ()) (.skip truncated failure :: frames) s)

theorem Alike.idle {m k : Machine σ} (h : Alike P m k) (hm : Reading m) :
    P.idle m.session.source k.session.source := by
  cases hm with
  | turn | name | compile | skip =>
    cases h
    assumption

theorem Alike.session {m k : Machine σ} (h : Alike P m k) : m.session.Alike P.view k.session := by
  cases h with
  | ended h => exact h.state
  | turn | invoke | answer => assumption

section Step

variable {s t : Session Empty σ} {frames others : List Frame}
  {truncated other failure failed : Failure} {x y name called : Token} {steps : List (Step Empty)}

theorem alike_answering {r q : EStateM.Result Failure (Session Empty σ) Unit}
    (h : SameEnd P.view r q) (hframes : List.Forall₂ (Frame.Alike P.view) frames others)
    (hidle : P.idle r.state.source q.state.source) :
    Alike P (answering frames r) (answering others q) :=
  .answer h.kind h.state hframes hidle

theorem alike_read {found find : Token → Session Empty σ → Machine σ}
    (hs : s.Alike P.view t) (hframes : List.Forall₂ (Frame.Alike P.view) frames others)
    (hcause : truncated.cause = other.cause) (hreads : P.Reads s.source t.source)
    (hfound : ∀ x y u v, x.Alike P.view y → u.Alike P.view v → P.fresh u.source v.source →
      Alike P (found x u) (find y v)) :
    Alike P (read truncated frames s found) (read other others t find) := by
  cases hreads with
  | none ha hb hidle =>
    rw [read_of_none ha, read_of_none hb]
    exact .answer (congrArg Except.error hcause) (hs.moved _ _ s.current t.current) hframes hidle
  | token ha hb htoken hfresh =>
    rw [read_of_token ha, read_of_token hb]
    exact hfound _ _ _ _ htoken (hs.moved _ _ s.current t.current) hfresh

theorem alike_execute {v w : Word (Behavior Empty)} (hs : s.Alike P.view t)
    (hframes : List.Forall₂ (Frame.Alike P.view) frames others) (hw : v.seen P.view = w.seen P.view)
    (hfresh : P.fresh s.source t.source) : Alike P (execute x v frames s) (execute y w others t) := by
  rw [execute, execute, Word.behavior_eq_of_seen hw, Word.name_eq_of_seen hw]
  exact .invoke _ (hs.moved _ _ _ _) hframes (P.idle_of_fresh hfresh) fun _ => hfresh

theorem alike_unknown (hxy : x.Alike P.view y) :
    kind (.error x.unknown : Except Failure Unit) = kind (.error y.unknown) := by
  simp [Token.unknown, hxy.text]

theorem alike_takeToken (hs : s.Alike P.view t) (hxy : x.Alike P.view y)
    (hfresh : P.fresh s.source t.source) : Alike P (takeToken x s) (takeToken y t) := by
  obtain ⟨hd, he⟩ | ⟨v, w, hv, hw, hvw⟩ := hs.dictionary.resolve_cases hxy
  · simp only [takeToken, hd, he]
    exact .answer (alike_unknown hxy) hs .nil (P.idle_of_fresh hfresh)
  · simp only [takeToken, hv, hw]
    exact alike_execute hs .nil hvw hfresh

theorem alike_compile (hs : s.Alike P.view t)
    (hframes : List.Forall₂ (Frame.Alike P.view) frames others)
    (hcause : truncated.cause = other.cause) (hname : name.Alike P.view called)
    (hxy : x.Alike P.view y) (hfresh : P.fresh s.source t.source) :
    Alike P (compile truncated name steps frames x s) (compile other called steps others y t) := by
  have hidle := P.idle_of_fresh hfresh
  have hframe (steps : List (Step Empty)) :
      List.Forall₂ (Frame.Alike P.view) (.compile truncated name steps :: frames)
        (.compile other called steps :: others) :=
    .cons (.compile steps hcause hname) hframes
  by_cases hend : x.text = endOfDefinition
  · rw [compile, compile, if_pos hend, if_pos (hxy.text ▸ hend)]
    exact alike_answering (hs.install hname steps) hframes hidle
  · have hend' : ¬y.text = endOfDefinition := hxy.text ▸ hend
    obtain ⟨hd, he⟩ | ⟨v, w, hv, hw, hvw⟩ := hs.dictionary.resolve_cases hxy
    · simp only [compile, if_neg hend, if_neg hend', hd, he]
      exact .answer (alike_unknown hxy) hs (hframe steps) hidle
    · simp only [compile, if_neg hend, if_neg hend', hv, hw, ← Word.immediate_eq_of_seen hvw,
        ← Word.behavior_eq_of_seen hvw, ← Word.name_eq_of_seen hvw]
      split
      · exact alike_execute hs (hframe steps) hvw hfresh
      · exact .answer rfl hs (hframe _) hidle

theorem alike_skip (hs : s.Alike P.view t)
    (hframes : List.Forall₂ (Frame.Alike P.view) frames others)
    (hcause : truncated.cause = other.cause) (hfailure : failure.cause = failed.cause)
    (hxy : x.Alike P.view y) (hfresh : P.fresh s.source t.source) :
    Alike P (skip truncated failure frames x s) (skip other failed others y t) := by
  have hidle := P.idle_of_fresh hfresh
  have hframe : List.Forall₂ (Frame.Alike P.view) (.skip truncated failure :: frames)
      (.skip other failed :: others) :=
    .cons (.skip hcause hfailure) hframes
  by_cases hend : x.text = endOfDefinition
  · rw [skip, skip, if_pos hend, if_pos (hxy.text ▸ hend)]
    exact .answer (congrArg Except.error hfailure) hs hframes hidle
  · have hend' : ¬y.text = endOfDefinition := hxy.text ▸ hend
    obtain ⟨hd, he⟩ | ⟨v, w, hv, hw, hvw⟩ := hs.dictionary.resolve_cases hxy
    · simp only [skip, if_neg hend, if_neg hend', hd, he]
      exact .answer rfl hs hframe hidle
    · simp only [skip, if_neg hend, if_neg hend', hv, hw, ← Word.immediate_eq_of_seen hvw]
      split
      · exact alike_execute hs hframe hvw hfresh
      · exact .answer rfl hs hframe hidle

theorem alike_takeTurn (hs : s.Alike P.view t)
    (hreads : s.exiting = false → P.Reads s.source t.source) :
    Alike P (takeTurn s) (takeTurn t) := by
  obtain ⟨hflush, hflush', hflushed⟩ := hs.flush
  cases hexit : s.exiting with
  | true =>
    rw [takeTurn_of_exiting hflush hexit, takeTurn_of_exiting hflush' (hs.exiting ▸ hexit)]
    exact .ended ⟨rfl, hflushed⟩
  | false =>
    have hexit' : t.exiting = false := hs.exiting ▸ hexit
    cases hreads hexit with
    | none ha hb hend =>
      rw [takeTurn_of_end hflush hexit (onSource_of_ok ha),
        takeTurn_of_end hflush' hexit' (onSource_of_ok hb)]
      exact .ended ⟨rfl, hflushed.moved _ _ s.current t.current⟩
    | token ha hb htoken hfresh =>
      rw [takeTurn_of_token hflush hexit (onSource_of_ok ha),
        takeTurn_of_token hflush' hexit' (onSource_of_ok hb)]
      exact alike_takeToken (hflushed.moved _ _ s.current t.current) htoken hfresh

theorem alike_evaluated {r q : EStateM.Result Failure (Session Empty σ) Unit}
    (h : SameEnd P.view r q) (hidle : P.idle r.state.source q.state.source) :
    Alike P (evaluated r) (evaluated q) := by
  obtain ⟨hkind, hstate⟩ := h
  cases r with
  | ok _ u =>
    cases q with
    | ok _ v => exact .turn hstate hidle
    | error => cases hkind
  | error failure u =>
    cases q with
    | ok => cases hkind
    | error failed v =>
      have hcause : failure.cause = failed.cause := by simpa using hkind
      exact .ended ⟨congrArg Except.error hcause, hstate⟩

theorem alike_conclude {a c : Except Failure Unit} (h : kind a = kind c) (hs : s.Alike P.view t)
    (hidle : P.idle s.source t.source) : Alike P (conclude a s) (conclude c t) := by
  cases a with
  | ok =>
    cases c with
    | ok => exact .turn hs hidle
    | error => cases h
  | error failure =>
    cases c with
    | ok => cases h
    | error failed =>
      have hcause : failure.cause = failed.cause := by simpa using h
      rw [conclude, conclude, ← Failure.isFatal_eq hcause, ← hcause]
      split
      · exact .ended ⟨congrArg Except.error hcause, hs⟩
      · have hprint := hs.print s!"{failure.cause.text}\n"
        have hsource (v : Session Empty σ) (text : String) :
            (print text v).state.source = v.source := by
          rw [print, state_onOutput]
        have hidle' : P.idle (print s!"{failure.cause.text}\n" s).state.source
            (print s!"{failure.cause.text}\n" t).state.source := by
          rwa [hsource, hsource]
        exact alike_evaluated hprint hidle'

theorem alike_comment (word : String) (hs : s.Alike P.view t)
    (hframes : List.Forall₂ (Frame.Alike P.view) frames others)
    (hfresh : P.fresh s.source t.source) :
    Alike P (start word frames s (.primitive .comment))
      (start word others t (.primitive .comment)) := by
  obtain ⟨line, more, c, d, ha, hb, hidle⟩ := P.line hfresh
  have hleft : start word frames s (.primitive .comment) =
      answer (.ok ()) frames { s with source := c } :=
    congrArg (answering frames) (bind_of_ok (onSource_of_ok ha))
  have hright : start word others t (.primitive .comment) =
      answer (.ok ()) others { t with source := d } :=
    congrArg (answering others) (bind_of_ok (onSource_of_ok hb))
  rw [hleft, hright]
  exact .answer rfl (hs.moved _ _ s.current t.current) hframes hidle

theorem alike_start (word : String) (b : Behavior Empty) (hs : s.Alike P.view t)
    (hframes : List.Forall₂ (Frame.Alike P.view) frames others) (hidle : P.idle s.source t.source)
    (hfresh : b = .primitive .comment → P.fresh s.source t.source)
    (hreads : b = .primitive .colon → P.Reads s.source t.source) :
    Alike P (start word frames s b) (start word others t b) := by
  cases b with
  | primitive p =>
    by_cases hcolon : p = .colon
    · subst hcolon
      refine alike_read hs hframes rfl (hreads rfl) fun x y u v hxy huv h => ?_
      exact .answer rfl huv (.cons (.compile [] rfl hxy) hframes) (P.idle_of_fresh h)
    · by_cases hcomment : p = .comment
      · subst hcomment
        exact alike_comment word hs hframes (hfresh rfl)
      · rw [start_primitive hcolon, start_primitive hcolon]
        refine alike_answering (hs.run hcolon hcomment _ word) hframes ?_
        rwa [Primitive.source_run hcolon hcomment, Primitive.source_run hcolon hcomment]
  | literal v =>
    exact .answer rfl ⟨congrArg (v :: ·) hs.stack, hs.dictionary, hs.output, hs.exiting⟩ hframes hidle
  | compiled steps => exact .answer rfl hs (.cons (.replay steps) hframes) hidle
  | host k => nomatch k

theorem alike_replay {rest : List (Step Empty)} (hs : s.Alike P.view t)
    (hframes : List.Forall₂ (Frame.Alike P.view) frames others) (hidle : P.idle s.source t.source)
    (hrest : ∀ step ∈ rest, step.1.CommentFree) :
    Alike P (replay frames s rest) (replay others t rest) := by
  cases rest with
  | nil => exact .answer rfl hs hframes hidle
  | cons step rest =>
    rw [replay, replay, ← hs.exiting]
    split
    · exact .answer rfl hs hframes hidle
    · have hfree := hrest step List.mem_cons_self
      exact .invoke _ hs (.cons (.replay rest) hframes) hidle fun h => absurd h hfree.ne_comment

theorem alike_resume {frame held : Frame} (hs : s.Alike P.view t)
    (hframes : List.Forall₂ (Frame.Alike P.view) frames others) (hidle : P.idle s.source t.source)
    (hframe : frame.Alike P.view held) (hproper : frame.Proper)
    (hreads : Reading (answer (.ok ()) (frame :: frames) s) → P.Reads s.source t.source) :
    Alike P (resume frames s frame) (resume others t held) := by
  cases hframe with
  | replay rest =>
    cases hproper with
    | replay hrest => exact alike_replay hs hframes hidle hrest
  | compile steps hcause hname =>
    refine alike_read hs hframes hcause (hreads .compile) fun x y u v hxy huv h => ?_
    exact alike_compile huv hframes hcause hname hxy h
  | skip hcause hfailure =>
    refine alike_read hs hframes hcause (hreads .skip) fun x y u v hxy huv h => ?_
    exact alike_skip huv hframes hcause hfailure hxy h

theorem alike_fail {frame held : Frame} (hcause : failure.cause = failed.cause)
    (hs : s.Alike P.view t) (hframes : List.Forall₂ (Frame.Alike P.view) frames others)
    (hidle : P.idle s.source t.source) (hframe : frame.Alike P.view held) :
    Alike P (fail failure frames s frame) (fail failed others t held) := by
  have herror : kind (.error failure : Except Failure Unit) = kind (.error failed) :=
    congrArg Except.error hcause
  cases hframe with
  | replay => exact .answer herror hs hframes hidle
  | compile steps htruncated hname =>
    rw [fail, fail, ← Failure.isFatal_eq hcause]
    split
    · exact .answer herror hs hframes hidle
    · exact .answer rfl hs (.cons (.skip htruncated hcause) hframes) hidle
  | skip htruncated hfirst =>
    rw [fail, fail, ← Failure.isFatal_eq hcause]
    split
    · exact .answer herror hs hframes hidle
    · exact .answer rfl hs (.cons (.skip htruncated hfirst) hframes) hidle

end Step

/-- Machines that are alike take alike steps, if the sources agree on what is read. -/
theorem Alike.step {m k : Machine σ} (h : Alike P m k) (hm : m.Proper)
    (hreads : Reading m → P.Reads m.session.source k.session.source) :
    Alike P (step m) (step k) := by
  cases h with
  | turn hs => exact alike_takeTurn hs fun hexit => hreads (.turn hexit)
  | @invoke b frames others s t word hs hframes hidle hfresh =>
    refine alike_start word b hs hframes hidle hfresh fun hb => hreads ?_
    rw [hb]
    exact .name
  | ended h => exact .ended h
  | @answer a c frames others s t hkind hs hframes hidle =>
    cases hframes with
    | nil => exact alike_conclude hkind hs hidle
    | cons hframe hframes =>
      cases a with
      | ok =>
        cases c with
        | ok =>
          cases hm with
          | answer _ _ hproper =>
            exact alike_resume hs hframes hidle hframe (hproper _ List.mem_cons_self) hreads
        | error => cases hkind
      | error failure =>
        cases c with
        | ok => cases hkind
        | error failed =>
          exact alike_fail (by simpa using hkind) hs hframes hidle hframe

/-- Machines that are alike come to the same end, if the sources always agree on what is read. -/
theorem Alike.reaches_ended {m k : Machine σ} {r : EStateM.Result Failure (Session Empty σ) Ending}
    (hP : ∀ a b, P.idle a b → P.Reads a b) (h : Alike P m k) (hm : m.Proper)
    (hr : Reaches m (Machine.ended r)) : ∃ q, Reaches k (Machine.ended q) ∧ SameEnd P.view r q := by
  obtain ⟨n, hn⟩ := hr
  induction n generalizing m k with
  | zero =>
    rw [show m = Machine.ended r from hn] at h
    cases h with
    | ended hend => exact ⟨_, .refl _, hend⟩
  | succ n ih =>
    have hnext := h.step hm fun hreading => hP _ _ (h.idle hreading)
    obtain ⟨q, hq, hend⟩ := ih hnext hm.step hn
    exact ⟨q, hq.step, hend⟩

end Machine

end Forth
