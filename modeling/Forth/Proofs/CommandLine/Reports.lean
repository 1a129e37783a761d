import Forth.CommandLine

/-! # What the program reports

What the program says besides its output is lines, each ended by a newline. If no
path that it tells holds a newline, the lines that begin as a report are the
reports: one if a failure ended the program, and none if it did its work or
aborted.
-/

namespace Forth

variable {separator : Char}

theorem splitAt_append {line : List Char} (h : separator ∉ line) (rest : List Char) :
    splitAt separator (line ++ separator :: rest) = line :: splitAt separator rest := by
  induction line with
  | nil => simp [splitAt]
  | cons c line ih =>
    have hc : ¬c = separator := fun heq => h (heq ▸ List.mem_cons_self)
    have hrest := ih fun hmem => h (List.mem_cons_of_mem c hmem)
    rw [splitAt] at hrest ⊢
    rw [List.cons_append, List.foldr_cons, hrest, if_neg hc]
    rfl

/-- Lines that each end at a separator are the parts of their text, and the last part is empty. -/
theorem splitAt_lines {lines : List (List Char)} (h : ∀ line ∈ lines, separator ∉ line) :
    splitAt separator (lines.flatMap (· ++ [separator])) = lines ++ [[]] := by
  induction lines with
  | nil => rfl
  | cons line lines ih =>
    obtain ⟨hline, hlines⟩ := List.forall_mem_cons.mp h
    rw [List.flatMap_cons, List.append_assoc, List.singleton_append, splitAt_append hline,
      ih hlines]
    rfl

theorem newline_not_mem_toString (n : Nat) : '\n' ∉ (toString n).toList := by
  intro h
  have hdigits : (toString n).toList = Nat.toDigits 10 n := Nat.toList_repr
  rw [hdigits] at h
  exact absurd (Nat.isDigit_of_mem_toDigits (by decide) (by decide) h) (by decide)

theorem Location.newline_not_mem_render {l : Location} (h : '\n' ∉ l.path.toList) :
    '\n' ∉ l.render.toList := by
  have hrender : l.render = l.path ++ " (" ++ toString l.line ++ ", " ++ toString l.column ++ ")" :=
    rfl
  simp only [hrender, String.toList_append, List.mem_append, h, newline_not_mem_toString, false_or,
    or_false]
  decide

namespace CommandLine

def isReport (line : List Char) : Bool := "Error: ".toList.isPrefixOf line

def report (failure : Failure) : String := s!"Error: {failure.message}"

def warningLine (place : Location) : String :=
  s!"WARN input line is not valid UTF-8 location={place.render}"

def abortLine (failure : Failure) : String := s!"ERROR session aborted err={failure.message}"

def complaintLines (failure : Failure) : List String :=
  if failure.aborts then [failure.cause.text] else [abortLine failure, report failure]

def Outcome.lines (o : Outcome) : List String :=
  o.garbled.map warningLine ++ o.failure.toList.flatMap complaintLines

theorem warningLine_eq (place : Location) :
    warningLine place = "WARN input line is not valid UTF-8 location=" ++ place.render := rfl

theorem abortLine_eq (failure : Failure) :
    abortLine failure = "ERROR session aborted err=" ++ failure.message := rfl

theorem report_eq (failure : Failure) : report failure = "Error: " ++ failure.message := rfl

theorem toList_warning (place : Location) :
    (warning place).toList = (warningLine place).toList ++ ['\n'] := by
  have hline : warning place = warningLine place ++ "\n" := rfl
  rw [hline, String.toList_append]
  rfl

theorem complaint_eq {failure : Failure} (h : failure.aborts = false) :
    complaint failure = abortLine failure ++ "\n" ++ (report failure ++ "\n") := by
  have hlines : complaint failure = abortLine failure ++ "\nError: " ++ failure.message ++ "\n" := by
    rw [complaint, h]
    rfl
  have hnewline : "\nError: " = "\n" ++ "Error: " := by decide
  simp only [hlines, report_eq, hnewline, String.append_assoc]

theorem toList_complaint (failure : Failure) :
    (complaint failure).toList =
      ((complaintLines failure).map String.toList).flatMap (· ++ ['\n']) := by
  cases h : failure.aborts with
  | true =>
    have hline : complaint failure = failure.cause.text ++ "\n" := by
      rw [complaint, h]
      rfl
    rw [hline, complaintLines, h]
    simp
  | false =>
    rw [complaint_eq h, complaintLines, h]
    simp

theorem toList_diagnostics (o : Outcome) :
    o.diagnostics.toList = (o.lines.map String.toList).flatMap (· ++ ['\n']) := by
  rw [Outcome.diagnostics, Outcome.lines, String.toList_append, String.toList_join, List.map_append,
    List.flatMap_append]
  congr 1
  · simp [List.flatMap_map, toList_warning]
  · cases o.failure with
    | none => rfl
    | some failure =>
      simp [toList_complaint]

theorem withoutReturn_isPrefix (line : List Char) : withoutReturn line <+: line := by
  rw [withoutReturn]
  split
  · exact List.dropLast_prefix line
  · exact List.prefix_rfl

theorem withoutReturn_of_getLast? {line : List Char} (h : line.getLast? ≠ some '\r') :
    withoutReturn line = line :=
  if_neg h

theorem isReport_of_withoutReturn {line : List Char} (h : isReport (withoutReturn line) = true) :
    isReport line = true := by
  rw [isReport, List.isPrefixOf_iff_prefix] at h ⊢
  exact h.trans (withoutReturn_isPrefix line)

theorem not_isReport_warningLine (place : Location) :
    isReport (withoutReturn (warningLine place).toList) = false := by
  refine Bool.eq_false_iff.mpr fun h => ?_
  have hprefix := isReport_of_withoutReturn h
  rw [warningLine_eq, String.toList_append] at hprefix
  cases hprefix

theorem not_isReport_abortLine (failure : Failure) :
    isReport (withoutReturn (abortLine failure).toList) = false := by
  refine Bool.eq_false_iff.mpr fun h => ?_
  have hprefix := isReport_of_withoutReturn h
  rw [abortLine_eq, String.toList_append] at hprefix
  cases hprefix

theorem isReport_report (failure : Failure) : isReport (report failure).toList = true := by
  rw [isReport, report_eq, String.toList_append, List.isPrefixOf_iff_prefix]
  exact List.prefix_append _ _

theorem newline_not_mem_warningLine {place : Location} (h : '\n' ∉ place.path.toList) :
    '\n' ∉ (warningLine place).toList := by
  rw [warningLine_eq, String.toList_append, List.mem_append, not_or]
  exact ⟨by decide, Location.newline_not_mem_render h⟩

theorem newline_not_mem_abortLine {failure : Failure} (h : '\n' ∉ failure.message.toList) :
    '\n' ∉ (abortLine failure).toList := by
  rw [abortLine_eq, String.toList_append, List.mem_append, not_or]
  exact ⟨by decide, h⟩

theorem newline_not_mem_report {failure : Failure} (h : '\n' ∉ failure.message.toList) :
    '\n' ∉ (report failure).toList := by
  rw [report_eq, String.toList_append, List.mem_append, not_or]
  exact ⟨by decide, h⟩

theorem reports_eq_filter {o : Outcome} (h : ∀ line ∈ o.lines, '\n' ∉ line.toList) :
    o.reports =
      ((o.lines.map fun line => withoutReturn line.toList).filter isReport).map String.ofList := by
  have hparts := splitAt_lines (List.forall_mem_map.mpr h)
  have hend : [withoutReturn []].filter isReport = [] := by decide
  change (((splitAt '\n' o.diagnostics.toList).map withoutReturn).filter isReport).map _ = _
  rw [toList_diagnostics, hparts, List.map_append, List.filter_append, List.map_map,
    List.map_singleton, hend, List.append_nil]
  rfl

section Reports

variable {o : Outcome} (hplaces : ∀ place ∈ o.garbled, '\n' ∉ place.path.toList)

theorem filter_warningLines (places : List Location) :
    ((places.map warningLine).map fun line => withoutReturn line.toList).filter isReport = [] := by
  rw [List.map_map, List.filter_eq_nil_iff]
  intro line hline
  obtain ⟨place, -, rfl⟩ := List.mem_map.mp hline
  exact Bool.eq_false_iff.mp (not_isReport_warningLine place)

include hplaces

theorem reports_of_success (ho : o.failure = none) : o.reports = [] := by
  have hlines : o.lines = o.garbled.map warningLine := by
    rw [Outcome.lines, ho]
    exact List.append_nil _
  rw [reports_eq_filter, hlines, filter_warningLines]
  · rfl
  · rw [hlines]
    exact List.forall_mem_map.mpr fun place hplace =>
      newline_not_mem_warningLine (hplaces place hplace)

theorem reports_of_abort {failure : Failure} (ho : o.failure = some failure)
    (haborts : failure.aborts = true) : o.reports = [] := by
  have hlines : o.lines = o.garbled.map warningLine ++ [failure.cause.text] := by
    rw [Outcome.lines, ho, Option.toList_some, List.flatMap_singleton, complaintLines, haborts]
    rfl
  have hcause : failure.cause = .columnTooWide := Cause.aborts_iff.mp haborts
  rw [reports_eq_filter, hlines, List.map_append, List.filter_append, filter_warningLines, hcause]
  · decide
  · rw [hlines, hcause]
    intro line hline
    obtain hline | hline := List.mem_append.mp hline
    · obtain ⟨place, hplace, rfl⟩ := List.mem_map.mp hline
      exact newline_not_mem_warningLine (hplaces place hplace)
    · rw [List.mem_singleton.mp hline]
      decide

theorem reports_of_failure {failure : Failure} (ho : o.failure = some failure)
    (haborts : failure.aborts = false) (hmessage : '\n' ∉ failure.message.toList)
    (hlast : (report failure).toList.getLast? ≠ some '\r') : o.reports = [report failure] := by
  have hlines : o.lines = o.garbled.map warningLine ++ [abortLine failure, report failure] := by
    rw [Outcome.lines, ho, Option.toList_some, List.flatMap_singleton, complaintLines, haborts]
    rfl
  rw [reports_eq_filter, hlines, List.map_append, List.filter_append, filter_warningLines]
  · simp [not_isReport_abortLine, withoutReturn_of_getLast? hlast, isReport_report]
  · rw [hlines]
    intro line hline
    obtain hline | hline := List.mem_append.mp hline
    · obtain ⟨place, hplace, rfl⟩ := List.mem_map.mp hline
      exact newline_not_mem_warningLine (hplaces place hplace)
    · simp only [List.mem_cons, List.not_mem_nil, or_false] at hline
      obtain rfl | rfl := hline
      · exact newline_not_mem_abortLine hmessage
      · exact newline_not_mem_report hmessage

end Reports

end CommandLine

end Forth
