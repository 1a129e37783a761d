import Forth.Proofs.Definition.Atomic
import Forth.Proofs.Dictionary.Listing
import Forth.Proofs.Session.Reliable

/-! # How long names become

A definition takes its name from what is unread. So if neither the names that are
bound nor the unread text are too long for a column, no name ever is, and the
dictionary can always be listed.
-/

namespace Forth

open Session

namespace Source

variable {s t : Source} {token : Token}

/-- The number of bytes of the unread text. -/
def size (s : Source) : Nat := (Utf8.bytes (String.ofList (Item.chars s.unread))).length

theorem size_ofText (path text : String) : (ofText path text).size = (Utf8.bytes text).length := by
  have hchars : Item.chars (ofText path text).unread = text.toList := by
    simp [ofText, Item.chars, List.filterMap_map, Function.comp_def, Item.char?]
  rw [size, hchars, String.ofList_toList]

theorem Moved.size_le (h : Moved s t) : t.size ≤ s.size := by
  obtain ⟨taken, hs, -⟩ := h
  rw [size, size, hs, Item.chars_append, Utf8.length_bytes_append]
  exact Nat.le_add_left _ _

/-- A token is a part of what is unread. -/
theorem length_text_of_nextToken (h : nextToken s = .ok (some token) t) :
    (Utf8.bytes token.text).length ≤ s.size := by
  obtain ⟨rfl, -⟩ := eq_of_nextToken h
  have hparts := congrArg Item.chars (Item.gap_append_word_append_afterWord s.unread)
  rw [Item.chars_append, Item.chars_append] at hparts
  rw [size, ← hparts, Utf8.length_bytes_append, Utf8.length_bytes_append]
  exact Nat.le_add_left_of_le (Nat.le_add_right _ _)

theorem Faultless.moved_nextToken (hs : s.Faultless) : Moved s (nextToken s).state := by
  cases h : nextToken s with
  | ok token t => exact moved_of_nextToken h
  | error failure t => exact absurd (met_of_nextToken h) hs.not_met

theorem Faultless.moved_restOfLine (hs : s.Faultless) : Moved s (restOfLine s).state := by
  cases h : restOfLine s with
  | ok line t => exact moved_of_restOfLine h
  | error failure t => exact absurd (met_of_restOfLine h) hs.not_met

end Source

variable {σ : Type} {n : Nat} {s : Session Empty σ}

/-- Neither the names that are bound nor the unread text have more bytes. -/
structure Session.Narrow (n : Nat) (s : Session Empty σ) : Prop where
  standard : s.dictionary.Standard
  faultless : s.source.Faultless
  names : s.dictionary.NamesWithin n
  size_le : s.source.size ≤ n

theorem Session.Narrow.define (hs : s.Narrow n) : (define .none s).state.Narrow n := by
  have hmoved : Source.Moved s.source (Forth.define .none s).state.source := by
    rw [source_define .none hs.standard]
    exact (Source.extent_draft _ hs.faultless).1
  refine ⟨standard_define .none hs.standard, hs.faultless.of_moved hmoved, ?_,
    hmoved.size_le.trans hs.size_le⟩
  obtain ⟨failure, -, hdefine⟩ | ⟨name, -, hname, hdefine⟩ := define_of_standard .none hs.standard
  · rw [hdefine]
    exact hs.names
  · rw [hdefine]
    obtain ⟨after, hread⟩ := Source.nextToken_of_draft_name hname
    exact hs.names.define ((Source.length_text_of_nextToken hread).trans hs.size_le)

theorem Session.Narrow.invariant (n : Nat) :
    Invariant (Session.Narrow n : Session Empty σ → Prop) := by
  refine .of_reading
    (P := fun d u => d.Standard ∧ u.Faultless ∧ d.NamesWithin n ∧ u.size ≤ n) ?_ ?_ ?_ ?_
  · exact fun s => ⟨fun hs => ⟨hs.standard, hs.faultless, hs.names, hs.size_le⟩,
      fun hs => ⟨hs.1, hs.2.1, hs.2.2.1, hs.2.2.2⟩⟩
  · exact fun s hs => hs.define
  · rintro d u ⟨hd, hu, hnames, hsize⟩
    have hmoved := hu.moved_nextToken
    exact ⟨hd, hu.of_moved hmoved, hnames, hmoved.size_le.trans hsize⟩
  · rintro d u ⟨hd, hu, hnames, hsize⟩
    have hmoved := hu.moved_restOfLine
    exact ⟨hd, hu.of_moved hmoved, hnames, hmoved.size_le.trans hsize⟩

end Forth
