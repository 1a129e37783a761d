import Forth.Text.Location
import Mathlib.Data.List.DropRight

/-! # Places count lines and columns

The location behind a text depends on the text as a whole: its line counts the
newlines, and its column the characters behind the last one. Reading on always
leads to a later location.
-/

namespace Forth.Location

/-- The place behind the text in the source called `path`. -/
def behind (path : String) (text : List Char) : Location where
  path
  line := 1 + text.count '\n'
  column := 1 + (text.rtakeWhile (· ≠ '\n')).length

theorem behind_concat (path : String) (text : List Char) (c : Char) :
    behind path (text ++ [c]) = (behind path text).advance c := by
  by_cases hc : c = '\n'
  · subst hc
    have hlast : (text ++ ['\n']).rtakeWhile (· ≠ '\n') = [] :=
      List.rtakeWhile_concat_neg _ _ _ (by decide)
    simp only [behind, advance, hlast, List.count_append, List.count_singleton_self, if_true]
    rfl
  · have hlast : (text ++ [c]).rtakeWhile (· ≠ '\n') = text.rtakeWhile (· ≠ '\n') ++ [c] :=
      List.rtakeWhile_concat_pos _ _ _ (by simpa using hc)
    have hcount : [c].count '\n' = 0 := List.count_eq_zero.mpr (by simpa using Ne.symm hc)
    simp only [behind, advance, hlast, hc, List.count_append, hcount, List.length_append, if_false]
    rfl

theorem advanceBy_behind (path : String) (text more : List Char) :
    (behind path text).advanceBy more = behind path (text ++ more) := by
  induction more generalizing text with
  | nil => rw [advanceBy_nil, List.append_nil]
  | cons c more ih =>
    rw [advanceBy_cons, ← behind_concat, ih, List.append_assoc, List.singleton_append]

theorem compare_eq_lt {a b : Location} (hpath : a.path = b.path)
    (h : a.line < b.line ∨ a.line = b.line ∧ a.column < b.column) : compare a b = .lt := by
  have hp : compare a.path b.path = .eq := by
    rw [hpath]
    exact Std.ReflCmp.compare_self
  change (compare a.path b.path).then
    ((compare a.line b.line).then (compare a.column b.column)) = .lt
  rw [hp]
  rcases h with hline | ⟨hline, hcolumn⟩
  · rw [Nat.compare_eq_lt.mpr hline]
    rfl
  · rw [Nat.compare_eq_eq.mpr hline, Nat.compare_eq_lt.mpr hcolumn]
    rfl

theorem behind_lt (path : String) (text : List Char) {more : List Char} (hmore : more ≠ []) :
    compare (behind path text) (behind path (text ++ more)) = .lt := by
  refine compare_eq_lt rfl ?_
  by_cases hnewline : '\n' ∈ more
  · left
    have hcount : 0 < more.count '\n' := List.count_pos_iff.mpr hnewline
    simp only [behind, List.count_append]
    omega
  · right
    have hcount : more.count '\n' = 0 := List.count_eq_zero.mpr hnewline
    have hlast : (text ++ more).rtakeWhile (· ≠ '\n') = text.rtakeWhile (· ≠ '\n') ++ more := by
      have hall : ∀ c ∈ more.reverse, decide (c ≠ '\n') = true := by
        intro c hc
        have hmem : c ∈ more := List.mem_reverse.mp hc
        exact decide_eq_true fun h => hnewline (h ▸ hmem)
      rw [List.rtakeWhile, List.reverse_append, List.takeWhile_append_of_pos hall,
        List.reverse_append, List.reverse_reverse, List.rtakeWhile]
    have hpos : 0 < more.length := List.length_pos_iff.mpr hmore
    simp only [behind, List.count_append, hcount, hlast, List.length_append]
    omega

theorem compare_self (a : Location) : compare a a = .eq := by
  change (compare a.path a.path).then
    ((compare a.line a.line).then (compare a.column a.column)) = .eq
  simp only [Std.ReflCmp.compare_self, Ordering.eq_then]

theorem behind_append_ne (path : String) (text : List Char) {more : List Char} (hmore : more ≠ []) :
    behind path (text ++ more) ≠ behind path text := by
  intro h
  have hlt := behind_lt path text hmore
  rw [h, compare_self] at hlt
  cases hlt

end Forth.Location
