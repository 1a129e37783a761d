import Forth.Proofs.Run.Trace
import Forth.Proofs.Run.Width
import Forth.Proofs.Source.Spelling

/-! # Which errors leave a run

Where reading and writing do not fail, nothing ends a source with an error but a
definition that has no end. Everything else is reported in one line, and the run
goes on behind the token that it came from. Only a listing that is too wide makes
the program abort.
-/

namespace Forth

open Session

variable {σ : Type}

def Session.entering (s : Session Empty σ) (source : Source) : Session Empty σ :=
  { s with source }

theorem runSource_eq (source : Source) (s : Session Empty σ) :
    runSource .none source s =
      (run .none (s.entering source)).mapState fun t =>
        { t with source := s.source, exiting := false } := by
  rw [runSource, Session.entering]
  cases run .none { s with source } <;> rfl

theorem answer_runSource (source : Source) (s : Session Empty σ) :
    (runSource .none source s).answer = (run .none (s.entering source)).answer := by
  rw [runSource_eq, EStateM.Result.answer_mapState]

/-- A run fails where a definition has no end, or where a dictionary cannot be listed. -/
theorem run_error_iff {s : Session Empty σ} (hs : s.Reliable) {failure : Failure} :
    (run .none s).answer = .error failure ↔
      ∃ t w v, Evaluates s t w ∧
        ((t.Starts w v ∧ v.draft.1.ending = .cutOff ∧ failure = v.truncated) ∨
          (t.Lists w v ∧ v.dictionary.listing = .error failure)) := by
  constructor
  · intro h
    cases hr : run .none s with
    | ok ending u =>
      rw [hr] at h
      cases h
    | error failed u =>
      rw [hr] at h
      cases h
      obtain ⟨t, w, hevaluates, hfailed⟩ := exists_evaluates_of_run_error hs hr
      obtain ⟨v, hstarts⟩ | ⟨v, hlists⟩ := evaluate_error_cases (hevaluates.reliable hs) hfailed
      · exact ⟨t, w, v, hevaluates, .inl hstarts⟩
      · exact ⟨t, w, v, hevaluates, .inr hlists⟩
  · rintro ⟨t, w, v, hevaluates, ⟨hstarts, hend, rfl⟩ | ⟨hlists, hwide⟩⟩
    · have hfailed := evaluate_of_cutOff (hevaluates.reliable hs) hstarts hend
      rw [hevaluates.run_eq hs, bind_of_error hfailed]
      rfl
    · have hfailed := evaluate_of_listing_error hlists hwide
      rw [hevaluates.run_eq hs, bind_of_error hfailed]
      rfl

theorem run_truncated_iff {s : Session Empty σ} (hs : s.Reliable) :
    (∃ place, (run .none s).answer =
      .error { cause := .truncatedDefinition, location := place }) ↔
      ∃ t w v, Evaluates s t w ∧ t.Starts w v ∧ v.draft.1.ending = .cutOff := by
  simp only [run_error_iff hs]
  constructor
  · rintro ⟨place, t, w, v, hevaluates, ⟨hstarts, hend, -⟩ | ⟨-, hwide⟩⟩
    · exact ⟨t, w, v, hevaluates, hstarts, hend⟩
    · cases (Dictionary.listing_eq_error_iff.mp hwide).1
  · rintro ⟨t, w, v, hevaluates, hstarts, hend⟩
    exact ⟨v.current, t, w, v, hevaluates, .inl ⟨hstarts, hend, rfl⟩⟩

theorem run_tooWide_iff {s : Session Empty σ} (hs : s.Reliable) :
    (run .none s).answer = .error Dictionary.tooWide ↔
      ∃ t w v, Evaluates s t w ∧ t.Lists w v ∧
        ¬v.dictionary.NamesWithin Dictionary.widestColumn := by
  rw [run_error_iff hs]
  constructor
  · rintro ⟨t, w, v, hevaluates, ⟨-, -, ⟨⟩⟩ | ⟨hlists, hwide⟩⟩
    exact ⟨t, w, v, hevaluates, hlists, Dictionary.listing_eq_tooWide_iff.mp hwide⟩
  · rintro ⟨t, w, v, hevaluates, hlists, hwide⟩
    exact ⟨t, w, v, hevaluates, .inr ⟨hlists, Dictionary.listing_eq_tooWide_iff.mpr hwide⟩⟩

/-- How errors are contained when a session runs a text. -/
structure Contains (s : Session Empty σ) (path text : String) : Prop where
  /-- The text is run, or it ends inside a definition, or the program aborts. -/
  result : (∃ ending, (processText .none path text s).answer = .ok ending) ∨
    (∃ place, (processText .none path text s).answer =
      .error { cause := .truncatedDefinition, location := place }) ∨
    (processText .none path text s).answer = .error Dictionary.tooWide
  /-- The text fails exactly if it ends while a `:` waits for its name or for its `;`. -/
  fails_iff : (∃ place, (processText .none path text s).answer =
      .error { cause := .truncatedDefinition, location := place }) ↔
    ∃ t w v, Evaluates (s.entering (.ofText path text)) t w ∧ t.Starts w v ∧
      v.draft.1.ending = .cutOff
  /-- The program aborts exactly if a word lists the dictionary while a name in it is too long. -/
  aborts_iff : (processText .none path text s).answer = .error Dictionary.tooWide ↔
    ∃ t w v, Evaluates (s.entering (.ofText path text)) t w ∧ t.Lists w v ∧
      ¬v.dictionary.NamesWithin Dictionary.widestColumn
  /-- So it does not if neither the names that are bound before nor the text are too long. -/
  short : s.dictionary.NamesWithin Dictionary.widestColumn →
    (Utf8.bytes text).length ≤ Dictionary.widestColumn →
    (processText .none path text s).answer ≠ .error Dictionary.tooWide
  /-- A token that refers to nothing is reported, and the run goes on behind it. -/
  unresolved : ∀ t w, Evaluates (s.entering (.ofText path text)) t w →
    w.dictionary.resolve t = none →
    evaluate .none t w = .ok () (w.reported t) ∧
      run .none (s.entering (.ofText path text)) = run .none (w.reported t)
  /-- The first token of a definition that refers to nothing is reported, and the run goes on
  behind the definition. -/
  abandoned : ∀ t w v before x after, Evaluates (s.entering (.ofText path text)) t w →
    t.Starts w v → v.draft.1.ending = .closed → v.draft.1.body = before ++ x :: after →
    (∀ y ∈ before, (v.dictionary.resolve y).isSome = true) → v.dictionary.resolve x = none →
    evaluate .none t w = .ok () (v.drafted.reported x) ∧
      run .none (s.entering (.ofText path text)) = run .none (v.drafted.reported x)

theorem contains_processText {s : Session Empty σ} (hs : Reachable s) (ho : s.output.Reliable)
    (path text : String) : Contains s path text := by
  have hstart : (s.entering (.ofText path text)).Reliable :=
    ⟨hs.standard, Source.faultless_ofText path text, ho⟩
  have hanswer : (processText .none path text s).answer =
      (run .none (s.entering (.ofText path text))).answer :=
    answer_runSource _ s
  constructor
  · rw [hanswer]
    cases hr : (run .none (s.entering (.ofText path text))).answer with
    | ok ending => exact .inl ⟨ending, rfl⟩
    | error failure =>
      obtain ⟨t, w, v, -, ⟨-, -, rfl⟩ | ⟨-, hwide⟩⟩ := (run_error_iff hstart).mp hr
      · exact .inr (.inl ⟨v.current, rfl⟩)
      · obtain ⟨rfl, -⟩ := Dictionary.listing_eq_error_iff.mp hwide
        exact .inr (.inr rfl)
  · rw [hanswer]
    exact run_truncated_iff hstart
  · rw [hanswer]
    exact run_tooWide_iff hstart
  · intro hnames htext
    rw [hanswer, ne_eq, run_tooWide_iff hstart]
    rintro ⟨t, w, v, hevaluates, hlists, hwide⟩
    have hnarrow : (s.entering (.ofText path text)).Narrow Dictionary.widestColumn :=
      ⟨hs.standard, hstart.source, hnames, (Source.size_ofText path text).trans_le htext⟩
    have hI := Session.Narrow.invariant (σ := σ) Dictionary.widestColumn
    obtain ⟨_, hperforms⟩ := hlists
    exact hwide (hI.of_performs hperforms (hI.of_evaluates hevaluates hnarrow)).names
  · intro t w hevaluates ht
    have hok := evaluate_of_unresolved (hevaluates.reliable hstart) ht
    refine ⟨hok, ?_⟩
    rw [hevaluates.run_eq hstart, bind_of_ok hok]
  · intro t w v before x after hevaluates hstarts hend hbody hbefore hx
    have hok := evaluate_of_unknown (hevaluates.reliable hstart) hstarts
      (.unknown hend hbody hbefore hx)
    refine ⟨hok, ?_⟩
    rw [hevaluates.run_eq hstart, bind_of_ok hok]

/-- Here a token and a definition are reported before the text ends inside a definition. -/
theorem contains_processText_truncated :
    let s : Session Empty Unit :=
      { dictionary := Dictionary.empty.definePrimitives, source := .ofText "" "", hostState := () }
    Reachable s ∧ s.output.Reliable ∧ Contains s "" "what : f dup who ; 1 : g" := by
  intro s
  have hs : Reachable s := .start _ ()
  have ho : s.output.Reliable := ⟨rfl, nofun⟩
  exact ⟨hs, ho, contains_processText hs ho _ _⟩

section LongName

variable {s : Session Empty σ} {t name last : Token} {tokens : List Token} {rest : List Item}

theorem exists_turn_of_spells (hs : s.Reliable) (hexit : s.exiting = false)
    (h : s.source.Spells (t :: tokens) rest) :
    ∃ w, Turn s t w ∧ w.source.Spells tokens rest ∧ w.dictionary = s.dictionary ∧
      w.exiting = false := by
  obtain ⟨u, hread, hu⟩ := h.nextToken
  exact ⟨_, ⟨_, flush_of_reliable hs.output, hexit, onSource_of_ok hread⟩, hu, rfl, hexit⟩

theorem exists_draft_of_spells (h : s.source.Spells (name :: last :: tokens) rest)
    (hlast : last.text = endOfDefinition) :
    ∃ u, s.draft = ({ name := some name, ending := .closed }, u) ∧ u.Spells tokens rest := by
  obtain ⟨u, hread, hu⟩ := h.nextToken
  obtain ⟨v, hend, hv⟩ := hu.nextToken
  have hbody : Source.draftBody s.dictionary.bindsComment u = ({ ending := .closed }, v) := by
    rw [Source.draftBody]
    split
    · rename_i herror
      cases hend.symm.trans herror
    · rename_i hnone
      cases hend.symm.trans hnone
    · rename_i hsome
      cases hend.symm.trans hsome
      rw [if_pos hlast]
  refine ⟨v, ?_, hv⟩
  simp only [Session.draft, Source.draft, hread, hbody]

theorem exists_define_of_spells (hd : s.dictionary.Standard)
    (h : s.source.Spells (name :: last :: tokens) rest) (hlast : last.text = endOfDefinition) :
    ∃ u w, define .none s = .ok () u ∧ u.source.Spells tokens rest ∧ w.name = name.text ∧
      u.dictionary = s.dictionary.define w ∧ u.exiting = s.exiting := by
  obtain ⟨u, hdraft, hu⟩ := exists_draft_of_spells h hlast
  obtain ⟨failure, hfailure, -⟩ | ⟨found, -, hname, hdefine⟩ := define_of_standard .none hd
  · rw [hdraft] at hfailure
    cases hfailure
  · rw [hdraft] at hname
    cases hname
    have hsource : s.drafted.source = u := congrArg Prod.snd hdraft
    exact ⟨_, _, hdefine, hsource ▸ hu, rfl, rfl, rfl⟩

theorem evaluate_of_primitive {p : Primitive} {u : Session Empty σ}
    (hp : s.dictionary.find? t.text = some (p.word.renamed t.text))
    (h : p.run (define .none) t.text { s with current := some t.location } = .ok () u) :
    evaluate .none t s = .ok () u := by
  have hresolve : s.dictionary.resolve t = some (p.word.renamed t.text) := by
    rw [Dictionary.resolve, hp]
    rfl
  have hrun : runToken .none t s = .ok () u := by
    rw [runToken, get_bind_apply, hresolve]
    exact h
  rw [evaluate, bind_of_ok (attempt_of_ok hrun)]
  rfl

/-- A program that defines a name which is too long, and then lists the dictionary, aborts. -/
theorem processText_of_long_name (hs : Reachable s) (ho : s.output.Reliable)
    (hexit : s.exiting = false)
    (hcolon : s.dictionary.find? ":" = some (Primitive.colon.word.renamed ":"))
    (hlist : s.dictionary.find? ".D" = some (Primitive.dotDictionary.word.renamed ".D"))
    {long : String} (hword : Text.IsWord long)
    (hlong : Dictionary.widestColumn < (Utf8.bytes long).length) (path : String) :
    (processText .none path (" ".intercalate [":", long, ";", ".D"]) s).answer =
      .error Dictionary.tooWide := by
  have hwords : ∀ w ∈ [":", long, ";", ".D"], Text.IsWord w := by
    simp only [List.forall_mem_cons, List.not_mem_nil, false_imp_iff, implies_true, and_true]
    exact ⟨Text.isWord_of_any (by decide) rfl, hword, Text.isWord_of_any (by decide) rfl,
      Text.isWord_of_any (by decide) rfl⟩
  obtain ⟨tokens, hspells, htexts, -⟩ := Source.exists_spells_intercalate path hwords
  obtain ⟨colon, name, last, list, rfl⟩ : ∃ a b c d, tokens = [a, b, c, d] := by
    have hlength := congrArg List.length htexts
    rw [List.length_map] at hlength
    exact List.length_eq_four.mp hlength
  simp only [List.map_cons, List.map_nil, List.cons.injEq, and_true] at htexts
  obtain ⟨hcolonText, hnameText, hlastText, hlistText⟩ := htexts
  have hstart : (s.entering (.ofText path (" ".intercalate [":", long, ";", ".D"]))).Reliable :=
    ⟨hs.standard, Source.faultless_ofText path _, ho⟩
  -- the first turn binds the name
  obtain ⟨w, hturn, hw, hwd, hwexit⟩ := exists_turn_of_spells hstart hexit hspells
  have hwreliable := (Evaluates.now hturn).reliable hstart
  obtain ⟨u, bound, hdefine, hu, hbound, hud, huexit⟩ :=
    exists_define_of_spells (s := { w with current := some colon.location }) hwreliable.standard hw
      hlastText
  have hwcolon : w.dictionary.find? colon.text =
      some (Primitive.colon.word.renamed colon.text) := by
    rw [hcolonText, hwd]
    exact hcolon
  have hok : evaluate .none colon w = .ok () u := evaluate_of_primitive hwcolon hdefine
  have hureliable := (Session.Reliable.invariant.evaluate colon).of_ok hok hwreliable
  -- the second one lists the dictionary
  obtain ⟨x, hlast, -, hxd, -⟩ := exists_turn_of_spells hureliable (huexit.trans hwexit) hu
  have hxdictionary : x.dictionary = s.dictionary.define bound := by
    rw [hxd, hud]
    exact congrArg (Dictionary.define · bound) hwd
  have hne : ".D" ≠ bound.name := by
    rw [hbound, hnameText]
    rintro rfl
    exact absurd hlong (by decide)
  have hxlist : x.dictionary.resolve list =
      some (Primitive.dotDictionary.word.renamed ".D") := by
    rw [Dictionary.resolve, hlistText, hxdictionary, Dictionary.find?_define_of_ne _ _ hne, hlist]
    rfl
  rw [processText, answer_runSource, run_tooWide_iff hstart]
  refine ⟨list, x, _, .later hturn hok (.now hlast), ⟨_, _, hxlist, .primitive ..⟩,
    fun hwithin => ?_⟩
  have hfound : x.dictionary.find? bound.name ≠ none := by
    rw [hxdictionary, Dictionary.find?_define_self]
    exact Option.some_ne_none _
  have hle := hwithin bound.name hfound
  rw [hbound, hnameText] at hle
  exact absurd hle (Nat.not_le.mpr hlong)

/-- A name of one byte more than a column can be wide makes the program abort. -/
theorem not_contained_of_long_name :
    let s : Session Empty Unit :=
      { dictionary := Dictionary.empty.definePrimitives, source := .ofText "" "", hostState := () }
    let long := String.ofList (List.replicate 65536 'a')
    let text := " ".intercalate [":", long, ";", ".D"]
    Reachable s ∧ s.output.Reliable ∧
      ¬((∃ ending, (processText .none "<test>" text s).answer = .ok ending) ∨
        ∃ place, (processText .none "<test>" text s).answer =
          .error { cause := .truncatedDefinition, location := place }) := by
  intro s long text
  have hs : Reachable s := .start _ ()
  have ho : s.output.Reliable := ⟨rfl, nofun⟩
  have hlong : Dictionary.widestColumn < (Utf8.bytes long).length :=
    Utf8.le_length_bytes_replicate 65536 'a'
  have hword : Text.IsWord long := by
    rw [Text.IsWord, String.toList_ofList]
    refine ⟨List.replicate_succ_ne_nil, fun c hc => ?_⟩
    rw [List.eq_of_mem_replicate hc]
    decide
  have haborts : (processText .none "<test>" text s).answer = .error Dictionary.tooWide :=
    processText_of_long_name hs ho rfl (Dictionary.find?_definePrimitives _ .colon)
      (Dictionary.find?_definePrimitives_symbol _ .dotDictionary rfl) hword hlong "<test>"
  refine ⟨hs, ho, ?_⟩
  rw [haborts]
  rintro (⟨ending, ⟨⟩⟩ | ⟨place, ⟨⟩⟩)

end LongName

end Forth
