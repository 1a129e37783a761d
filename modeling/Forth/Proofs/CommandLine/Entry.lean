import Forth.Proofs.CommandLine.Reports
import Forth.Proofs.Machine.View
import Forth.Proofs.Run.Place
import Forth.Proofs.Source.Streaming

/-! # Three ways in

A text is run as a script, as the standard input, or in a session that is given
the text. The program does the same each time. It prints the same and ends in the
same way, and the report of a failure differs in the name of the source only. A
program that aborts reports nothing, and has a status that no other ending has.
-/

namespace Forth

/-- The input ended inside a definition, which is reported at the place. -/
def Failure.truncatedAt (place : Location) : Failure :=
  { cause := .truncatedDefinition, location := some place }

namespace CommandLine

section Run

variable (path tag text : String)

theorem session_seen : (session (.ofText path text)).seen (Location.named tag) =
    session (.ofText tag text) := by
  have hdictionary := Dictionary.definePrimitives_seen (Location.named tag)
    (Dictionary.empty : Dictionary (Behavior Empty))
  exact congrArg (fun dictionary => { session (.ofText tag text) with dictionary }) hdictionary.symm

theorem run_named : Forth.run .none (session (.ofText tag text)) =
    (Forth.run .none (session (.ofText path text))).trimap id
      (Failure.seen (Location.named tag)) (Session.seen (Location.named tag)) := by
  have hs : (session (.ofText path text)).dictionary.OnlyComments :=
    Dictionary.proper_empty.definePrimitives.onlyComments
  rw [← run_seen (Location.advances_named tag) hs, session_seen]

/-- A run stays in its source. -/
theorem path_run :
    (Forth.run .none (session (.ofText path text))).state.source.location.path = path := by
  rw [run_named path path, EStateM.Result.state_trimap]
  rfl

/-- A run in a fresh session fails with a definition that has no end, or because the program aborts,
or it does not fail. -/
theorem run_error_cases {failure : Failure} {u : Session Empty Unit}
    (h : Forth.run .none (session (.ofText path text)) = .error failure u) :
    (∃ place, place.path = path ∧ failure = .truncatedAt place) ∨
      failure = Dictionary.tooWide := by
  have hreachable : Reachable (session (.ofText path text)) := .start _ ()
  have hreliable : (session (.ofText path text)).Reliable :=
    ⟨hreachable.standard, Source.faultless_ofText path text, ⟨rfl, nofun⟩⟩
  obtain ⟨t, w, v, hevaluates, ⟨hstarts, hend, hfailure⟩ | ⟨-, hwide⟩⟩ :=
    (run_error_iff hreliable).mp (congrArg EStateM.Result.answer h)
  · have hcurrent := CutsOff.current_eq ⟨hevaluates, hstarts, hend⟩ hreachable
    have hnamed := run_named path path text
    rw [h] at hnamed
    have hseen : failure = failure.seen (Location.named path) := (EStateM.Result.error.inj hnamed).1
    refine .inl ⟨((t.comments w).getLast?.getD t).location.named path, rfl, ?_⟩
    rw [hseen, hfailure, Session.truncated, hcurrent]
    rfl
  · exact .inr (Dictionary.listing_eq_error_iff.mp hwide).1

end Run

theorem path_of_mem_garbledLines {bytes : List UInt8} {reached place : Location}
    (h : place ∈ garbledLines bytes reached) : place.path = reached.path := by
  obtain ⟨⟨line, before⟩, -, hplace⟩ := List.mem_filterMap.mp h
  dsimp only at hplace
  split at hplace
  · cases hplace
  · cases hplace
    rfl

/-- The program ends with this line. If the tag of its source holds no newline, no other line looks
like a report. -/
structure Outcome.Reports (o : Outcome) (tag line : String) : Prop where
  last : ∃ before, o.diagnostics = before ++ line ++ "\n"
  only : '\n' ∉ tag.toList → o.reports = [line]

/-- The outcome of a text under a tag is what a fresh session comes to that runs the text under a
path. -/
structure Outcome.Shows (o : Outcome) (tag path : String)
    (r : EStateM.Result Failure (Session Empty Unit) Ending) : Prop where
  printed : o.printed = r.state.output.written
  zero_iff : o.status = 0 ↔ ∃ ending, r.answer = .ok ending
  one_iff : o.status = 1 ↔ ∃ failure, failure.aborts = false ∧ r.answer = .error failure
  finished : ∀ ending, r.answer = .ok ending →
    o.failure = none ∧ ('\n' ∉ tag.toList → o.reports = [])
  /-- The only failure is a definition without an end. -/
  failed : ∀ failure, failure.aborts = false → r.answer = .error failure → ∃ place,
    place.path = path ∧ failure = .truncatedAt place ∧
    o.failure = some (.truncatedAt (place.named tag)) ∧
    o.Reports tag s!"Error: {tag} ({place.line}, {place.column}): EOF during word definition"
  /-- The program aborts where a dictionary cannot be listed, and reports nothing. -/
  aborted : ∀ failure, failure.aborts = true → r.answer = .error failure →
    failure = Dictionary.tooWide ∧ o.status = 101 ∧ o.failure = some Dictionary.tooWide ∧
      ('\n' ∉ tag.toList → o.reports = [])

theorem message_truncatedAt (place : Location) : (Failure.truncatedAt place).message =
    place.render ++ (": " ++ "EOF during word definition") :=
  String.append_assoc

theorem report_truncatedAt (place : Location) : report (.truncatedAt place) =
    s!"Error: {place.path} ({place.line}, {place.column}): EOF during word definition" := by
  have htext : ")" ++ (": " ++ "EOF during word definition") = "): EOF during word definition" := by
    decide
  simp only [report_eq, message_truncatedAt, Location.render, toString, String.append_assoc, htext]

theorem diagnostics_of_failure {o : Outcome} {failure : Failure} (ho : o.failure = some failure)
    (haborts : failure.aborts = false) :
    ∃ before, o.diagnostics = before ++ report failure ++ "\n" := by
  refine ⟨String.join (o.garbled.map warning) ++ (abortLine failure ++ "\n"), ?_⟩
  have hdiagnostics : o.diagnostics = String.join (o.garbled.map warning) ++ complaint failure := by
    rw [Outcome.diagnostics, ho]
    rfl
  rw [hdiagnostics, complaint_eq haborts, ← String.append_assoc, ← String.append_assoc]

theorem reports_of_truncated {o : Outcome} {place : Location}
    (hplaces : ∀ place ∈ o.garbled, '\n' ∉ place.path.toList)
    (ho : o.failure = some (.truncatedAt place)) (hplace : '\n' ∉ place.path.toList) :
    o.reports = [report (.truncatedAt place)] := by
  refine reports_of_failure hplaces ho rfl ?_ ?_
  · rw [message_truncatedAt, String.toList_append, List.mem_append, not_or]
    exact ⟨Location.newline_not_mem_render hplace, by decide⟩
  · have hlast : (": " ++ "EOF during word definition").toList.getLast? = some 'n' := by decide
    rw [report_eq, message_truncatedAt, ← String.append_assoc, String.toList_append,
      List.getLast?_append, hlast]
    nofun

section Shows

variable {garbled : List Location} {tag path : String} {s t : Session Empty Unit}
  (hplaces : '\n' ∉ tag.toList → ∀ place ∈ garbled, '\n' ∉ place.path.toList)

include hplaces

theorem shows_of_success (ending : Ending) (hprinted : s.output.written = t.output.written) :
    { Outcome.ofResult (.ok ending s) with garbled }.Shows tag path (.ok ending t) := by
  constructor
  · exact hprinted
  · exact ⟨fun _ => ⟨ending, rfl⟩, fun _ => rfl⟩
  · constructor
    · rintro ⟨⟩
    · rintro ⟨_, -, ⟨⟩⟩
  · exact fun _ _ => ⟨rfl, fun htag => reports_of_success (hplaces htag) rfl⟩
  · rintro _ - ⟨⟩
  · rintro _ - ⟨⟩

theorem shows_of_truncated (place : Location) (hprinted : s.output.written = t.output.written) :
    { Outcome.ofResult (α := Ending) (.error (.truncatedAt (place.named tag)) s) with
      garbled }.Shows tag place.path (.error (.truncatedAt place) t) := by
  constructor
  · exact hprinted
  · constructor
    · rintro ⟨⟩
    · rintro ⟨_, ⟨⟩⟩
  · exact ⟨fun _ => ⟨_, rfl, rfl⟩, fun _ => rfl⟩
  · rintro _ ⟨⟩
  · rintro _ - ⟨⟩
    refine ⟨place, rfl, rfl, rfl, ?_⟩
    have hline := report_truncatedAt (place.named tag)
    exact hline ▸ ⟨diagnostics_of_failure rfl rfl, fun htag =>
      reports_of_truncated (hplaces htag) rfl htag⟩
  · rintro _ haborts ⟨⟩
    cases haborts

theorem shows_of_abort (hprinted : s.output.written = t.output.written) :
    { Outcome.ofResult (α := Ending) (.error Dictionary.tooWide s) with garbled }.Shows tag path
      (.error Dictionary.tooWide t) := by
  constructor
  · exact hprinted
  · constructor
    · rintro ⟨⟩
    · rintro ⟨_, ⟨⟩⟩
  · constructor
    · rintro ⟨⟩
    · rintro ⟨_, haborts, ⟨⟩⟩
      cases haborts
  · rintro _ ⟨⟩
  · rintro _ haborts ⟨⟩
    cases haborts
  · rintro _ - ⟨⟩
    exact ⟨rfl, rfl, rfl, fun htag => reports_of_abort (hplaces htag) rfl rfl⟩

end Shows

section Content

variable (content : List UInt8)

theorem ofReader_chunk (tag : String) : Source.ofReader tag (Reading.chunk content) =
    .ofText tag (String.ofList (Utf8.decode content)) := by
  simpa using Source.ofReader_flatMap_chunk tag [content]

theorem ofReadings_chunk (tag : String) :
    let r := Forth.run .none (session (.ofText tag (String.ofList (Utf8.decode content))))
    Outcome.ofReadings tag (Reading.chunk content) =
      { Outcome.ofResult r with garbled := garbledLines content r.state.source.location } := by
  have hbytes : Reading.bytes (Reading.chunk content) = content := by
    simp [Reading.bytes, Reading.chunk, List.filterMap_map]
  simp only [Outcome.ofReadings, ofReader_chunk, hbytes]
  cases Forth.run .none (session (.ofText tag (String.ofList (Utf8.decode content)))) <;> rfl

theorem garbled_ofReadings {tag : String} {place : Location}
    (h : place ∈ (Outcome.ofReadings tag (Reading.chunk content)).garbled) : place.path = tag := by
  rw [ofReadings_chunk] at h
  rw [path_of_mem_garbledLines h, path_run]

theorem shows_ofReadings (tag path : String) (source : Source) :
    (Outcome.ofReadings tag (Reading.chunk content)).Shows tag path
      (processText .none path (String.ofList (Utf8.decode content)) (session source)) := by
  have hplaces (htag : '\n' ∉ tag.toList) :
      ∀ place ∈ (Outcome.ofReadings tag (Reading.chunk content)).garbled,
        '\n' ∉ place.path.toList :=
    fun place hplace => (garbled_ofReadings content hplace).symm ▸ htag
  have ho := ofReadings_chunk content tag
  generalize Outcome.ofReadings tag (Reading.chunk content) = o at ho hplaces ⊢
  rw [run_named path tag] at ho
  rw [processText, runSource_eq]
  change o.Shows tag path ((Forth.run .none (session (.ofText path _))).mapState _)
  cases hr : Forth.run .none (session (.ofText path (String.ofList (Utf8.decode content)))) with
  | ok ending u =>
    rw [hr] at ho
    subst ho
    exact shows_of_success hplaces ending rfl
  | error failure u =>
    rw [hr] at ho
    subst ho
    obtain ⟨place, rfl, rfl⟩ | rfl := run_error_cases path _ hr
    · exact shows_of_truncated hplaces place rfl
    · exact shows_of_abort hplaces rfl

end Content

theorem Outcome.Shows.failure_eq {o q : Outcome} {tag other path : String}
    {r : EStateM.Result Failure (Session Empty Unit) Ending} (ho : o.Shows tag path r)
    (hq : q.Shows other path r) :
    o.failure = q.failure.map (Failure.seen (Location.named tag)) := by
  cases hr : r.answer with
  | ok ending =>
    rw [(ho.finished ending hr).1, (hq.finished ending hr).1]
    rfl
  | error failure =>
    cases haborts : failure.aborts with
    | true =>
      obtain ⟨-, -, hfirst, -⟩ := ho.aborted failure haborts hr
      obtain ⟨-, -, hsecond, -⟩ := hq.aborted failure haborts hr
      rw [hfirst, hsecond]
      rfl
    | false =>
      obtain ⟨place, -, rfl, hfirst, -⟩ := ho.failed failure haborts hr
      obtain ⟨_, -, ⟨⟩, hsecond, -⟩ := hq.failed _ haborts hr
      rw [hfirst, hsecond]
      rfl

/-- But for the lines that are no text, the outcome of a script is what comes of processing its file in
a fresh session. -/
theorem runScript_eq_processFile (files : FileTree) (stdin : List UInt8) (script : String)
    (source : Source) :
    { runScript files stdin (some script) with garbled := [] } =
      Outcome.ofResult (processFile .none (withStandardInput files stdin) script
        (session source)) := by
  rw [runScript, processFile]
  cases (withStandardInput files stdin).read script with
  | error e => rfl
  | ok readings =>
    change { Outcome.ofReadings script readings with garbled := [] } =
      Outcome.ofResult (runSource .none (.ofReader script readings) (session source))
    rw [runSource_eq, Outcome.ofReadings]
    change _ = Outcome.ofResult
      ((Forth.run .none (session (.ofReader script readings))).mapState _)
    cases Forth.run .none (session (.ofReader script readings)) <;> rfl

/-- A script, the standard input and a text that is handed over are run in the same way. -/
theorem outcome_of_content {arguments others : List String} {script : String}
    {files elsewhere : FileTree} {stdin content : List UInt8} (path : String) (source : Source)
    (hscript : ofArguments none arguments = some (.run (some script)))
    (hothers : ofArguments none others = some (.run none))
    (hread : (withStandardInput files stdin).read script = .ok (Reading.chunk content)) :
    let text := String.ofList (Utf8.decode content)
    let r := processText .none path text (session source)
    let o := outcome arguments files stdin
    let q := outcome others elsewhere content
    o.Shows script path r ∧ q.Shows standardInput path r ∧
      o.failure = q.failure.map (Failure.seen (Location.named script)) ∧
      '\n' ∉ standardInput.toList ∧
      { o with garbled := [] } = Outcome.ofResult
        (processFile .none (withStandardInput files stdin) script (session source)) ∧
      processFile .none (withStandardInput files stdin) script (session source) =
        processText .none script text (session source) := by
  intro text r o q
  have ho : o = .ofReadings script (Reading.chunk content) := by
    simp only [o, outcome, hscript, Command.outcome, runScript, hread]
    rfl
  have hq : q = .ofReadings standardInput (Reading.chunk content) := by
    simp only [q, outcome, hothers, Command.outcome, runScript]
  have hfirst : o.Shows script path r := ho ▸ shows_ofReadings content script path source
  have hsecond : q.Shows standardInput path r :=
    hq ▸ shows_ofReadings content standardInput path source
  refine ⟨hfirst, hsecond, hfirst.failure_eq hsecond, by decide, ?_, ?_⟩
  · simp only [o, outcome, hscript, Command.outcome]
    exact runScript_eq_processFile files stdin script source
  · rw [processFile, hread]
    exact congrArg (fun source => runSource .none source (session _))
      (ofReader_chunk content script)

/-- Here a line is no text, and the content ends inside a definition. -/
theorem outcome_of_content_truncated :
    let content := "1 . ".toUTF8.data.toList ++ 0xFF :: "\n: f dup".toUTF8.data.toList
    let files := ({} : FileTree).insert ["a.fs", "/", "tmp"] (.contents content)
    let r := processText .none "" (String.ofList (Utf8.decode content)) (session (.ofText "" ""))
    let o := outcome ["--", "a.fs"] files []
    let q := outcome [] {} content
    ofArguments none ["--", "a.fs"] = some (.run (some "a.fs")) ∧
      ofArguments none [] = some (.run none) ∧
      (withStandardInput files []).read "a.fs" = .ok (Reading.chunk content) ∧
      r.answer = .error (.truncatedAt { path := "", line := 2, column := 1 }) ∧
      o.status = 1 ∧ o.reports = ["Error: a.fs (2, 1): EOF during word definition"] ∧
      q.status = 1 ∧ q.reports = ["Error: <stdin> (2, 1): EOF during word definition"] := by
  intro content files r o q
  have hscript : ofArguments none ["--", "a.fs"] = some (.run (some "a.fs")) := by decide
  have hothers : ofArguments none [] = some (.run none) := rfl
  have hread : (withStandardInput files []).read "a.fs" = .ok (Reading.chunk content) := rfl
  have hr : r.answer = .error (.truncatedAt { path := "", line := 2, column := 1 }) := by
    decide +kernel
  obtain ⟨ho, hq, -, hline, -⟩ := outcome_of_content "" (.ofText "" "") hscript hothers hread
  obtain ⟨_, -, ⟨⟩, -, hfirst⟩ := ho.failed _ rfl hr
  obtain ⟨_, -, ⟨⟩, -, hsecond⟩ := hq.failed _ rfl hr
  exact ⟨hscript, hothers, hread, hr, ho.one_iff.mpr ⟨_, rfl, hr⟩, hfirst.only (by decide),
    hq.one_iff.mpr ⟨_, rfl, hr⟩, hsecond.only hline⟩

end CommandLine

end Forth
