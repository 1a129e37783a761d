import Forth.File.Open
import Mathlib.Data.List.TakeDrop
import Mathlib.Data.List.TakeWhile

/-! # Going on with a file

A file that was put aside is taken up again where it was. The seams in what is
unread tell which lines have been fetched, and these are left out of it. What was
taken in the same block as they were, and belongs to none of them, comes first.
-/

namespace Forth

namespace Reading

theorem flatten_linesFrom (line bytes : List UInt8) :
    (linesFrom line bytes).flatten = line.reverse ++ bytes := by
  induction bytes generalizing line with
  | nil => cases line <;> simp [linesFrom]
  | cons b rest ih =>
    rw [linesFrom]
    split
    · simp [ih]
    · simp [ih]

theorem linesFrom_flatten_of_cons {line bytes first : List UInt8} {rest : List (List UInt8)}
    (h : linesFrom line bytes = first :: rest) : linesFrom [] rest.flatten = rest := by
  induction bytes generalizing line with
  | nil =>
    rw [linesFrom] at h
    split at h
    · cases h
    · cases h
      rfl
  | cons b bytes ih =>
    rw [linesFrom] at h
    split at h
    · cases h
      rw [flatten_linesFrom]
      rfl
    · exact ih h

theorem linesFrom_flatten_drop (bytes : List UInt8) (k : Nat) :
    linesFrom [] ((linesFrom [] bytes).drop k).flatten = (linesFrom [] bytes).drop k := by
  induction k generalizing bytes with
  | zero =>
    rw [List.drop_zero, flatten_linesFrom]
    rfl
  | succ k ih =>
    cases h : linesFrom [] bytes with
    | nil => rfl
    | cons first rest =>
      have hrest := ih rest.flatten
      rwa [linesFrom_flatten_of_cons h] at hrest

end Reading

namespace OpenFile

/-- The items of some lines, each of them behind a seam, with another seam at the end. -/
def itemsOf (lines : List (List UInt8)) : List Item :=
  .seam :: lines.flatMap fun line => (Utf8.decode line).map .char ++ [.seam]

theorem itemsOf_cons (line : List UInt8) (lines : List (List UInt8)) :
    itemsOf (line :: lines) = .seam :: ((Utf8.decode line).map .char ++ itemsOf lines) := by
  simp [itemsOf]

theorem countP_itemsOf (lines : List (List UInt8)) :
    (itemsOf lines).countP Item.isSeam = lines.length + 1 := by
  induction lines with
  | nil => rfl
  | cons line lines ih =>
    have hline : ((Utf8.decode line).map Item.char).countP Item.isSeam = 0 := by
      simp [List.countP_eq_zero, Item.isSeam]
    rw [itemsOf_cons, List.countP_cons_of_pos rfl, List.countP_append, ih, hline, List.length_cons,
      Nat.zero_add]

def Seamless (items : List Item) : Prop := ∀ i ∈ items, i.isSeam = false

/-- What can be unread of a file: the rest of a line, with the lines behind it unless the end has been
met. -/
inductive Holds (f : OpenFile) : List Item → Prop
  | ended {line : List Item} : Seamless line → Holds f line
  | line {line : List Item} {k : Nat} : Seamless line → k ≤ f.lines.length →
      Holds f (line ++ itemsOf (f.lines.drop k))

variable {f : OpenFile} {line unread : List Item}

theorem seamless_nil : Seamless [] := nofun

theorem holds_items (f : OpenFile) : f.Holds f.items :=
  .line seamless_nil (Nat.zero_le _)

theorem Seamless.of_append {taken : List Item} (h : Seamless (taken ++ unread)) : Seamless unread :=
  fun i hi => h i (List.mem_append_right taken hi)

/-- What is left of the rest of a line and the lines behind it has the same form. -/
theorem exists_of_append_eq {taken : List Item} {lines : List (List UInt8)} (hline : Seamless line)
    (h : line ++ itemsOf lines = taken ++ unread) :
    Seamless unread ∨
      ∃ rest j, Seamless rest ∧ j ≤ lines.length ∧ unread = rest ++ itemsOf (lines.drop j) := by
  induction lines generalizing line taken with
  | nil =>
    obtain ⟨past, rfl, hunread⟩ | ⟨rest, rfl, hunread⟩ := List.append_eq_append_iff.mp h
    · cases past with
      | nil => exact .inr ⟨[], 0, seamless_nil, Nat.zero_le _, hunread.symm⟩
      | cons i past =>
        obtain ⟨-, hnone⟩ := List.cons.inj hunread
        obtain ⟨-, rfl⟩ := List.append_eq_nil_iff.mp hnone.symm
        exact .inl seamless_nil
    · exact .inr ⟨rest, 0, hline.of_append, Nat.zero_le _, hunread⟩
  | cons first lines ih =>
    obtain ⟨past, rfl, hunread⟩ | ⟨rest, rfl, hunread⟩ := List.append_eq_append_iff.mp h
    · cases past with
      | nil => exact .inr ⟨[], 0, seamless_nil, Nat.zero_le _, hunread.symm⟩
      | cons i past =>
        rw [itemsOf_cons] at hunread
        have hfirst : Seamless ((Utf8.decode first).map .char) := by simp [Seamless, Item.isSeam]
        obtain hended | ⟨rest, j, hrest, hj, hunread⟩ := ih hfirst (List.cons.inj hunread).2
        · exact .inl hended
        · exact .inr ⟨rest, j + 1, hrest, Nat.succ_le_succ hj, hunread⟩
    · exact .inr ⟨rest, 0, hline.of_append, Nat.zero_le _, hunread⟩

theorem Holds.of_append {taken : List Item} (h : f.Holds (taken ++ unread)) : f.Holds unread := by
  generalize hitems : taken ++ unread = items at h
  cases h with
  | ended hline =>
    subst hitems
    exact .ended hline.of_append
  | line hline hk =>
    obtain hended | ⟨rest, j, hrest, hj, rfl⟩ := exists_of_append_eq hline hitems.symm
    · exact .ended hended
    · rw [List.length_drop] at hj
      rw [List.drop_drop]
      exact .line hrest (by omega)

section Skip

variable (f) (size : Nat)

theorem taken_append_ahead_skip :
    (f.skip size).taken ++ (f.skip size).ahead = (f.taken ++ f.ahead).drop size := by
  generalize hn : (size - f.taken.length + (blockSize - 1)) / blockSize * blockSize = n
  have hsize : size ≤ f.taken.length + n := by
    simp only [blockSize] at hn
    omega
  obtain hle | hle := Nat.le_total n f.ahead.length
  · have hlength : (f.ahead.take n).length = n := List.length_take_of_le hle
    have htaken : size ≤ (f.taken ++ f.ahead.take n).length := by
      rw [List.length_append, hlength]
      exact hsize
    calc (f.skip size).taken ++ (f.skip size).ahead
        = (f.taken ++ f.ahead.take n).drop size ++ f.ahead.drop n := by rw [skip, hn, hlength]
      _ = (f.taken ++ f.ahead).drop size := by
          rw [← List.drop_append_of_le_length htaken, List.append_assoc, List.take_append_drop]
  · -- the file ends in the last of the blocks
    rw [skip, hn, List.take_of_length_le hle, List.drop_length, List.append_nil]

theorem lines_skip (k : Nat) :
    (f.skip (f.lines.take k).flatten.length).lines = f.lines.drop k := by
  have hbytes : f.taken ++ f.ahead = (f.lines.take k).flatten ++ (f.lines.drop k).flatten := by
    rw [← List.flatten_append, List.take_append_drop, lines, Reading.flatten_linesFrom]
    rfl
  rw [lines, taken_append_ahead_skip, hbytes, List.drop_left]
  exact Reading.linesFrom_flatten_drop _ k

end Skip

theorem Seamless.countP_eq (h : Seamless line) : line.countP Item.isSeam = 0 :=
  List.countP_eq_zero.mpr fun i hi => by simp [h i hi]

theorem lines_advance {k : Nat} (hline : Seamless line) (hk : k ≤ f.lines.length) :
    (f.advance (line ++ itemsOf (f.lines.drop k))).lines = f.lines.drop k := by
  have hfetched : f.lines.length + 1 -
      (line ++ itemsOf (f.lines.drop k)).countP Item.isSeam = k := by
    rw [List.countP_append, hline.countP_eq, countP_itemsOf, List.length_drop]
    omega
  rw [advance, hfetched, lines_skip]

theorem span_of_seamless (hline : Seamless line) (rest : List Item) :
    (line ++ .seam :: rest).span (!·.isSeam) = (line, .seam :: rest) := by
  have hall : ∀ i ∈ line, (!i.isSeam) = true := fun i hi => by simp [hline i hi]
  rw [List.span_eq_takeWhile_dropWhile, List.takeWhile_append_of_pos hall,
    List.dropWhile_append_of_pos hall]
  simp [Item.isSeam]

theorem resume_of_line (f : OpenFile) (hline : Seamless line) (lines : List (List UInt8)) :
    f.resume (line ++ itemsOf lines) = line ++ f.items := by
  simp only [resume, itemsOf, span_of_seamless hline]

theorem resume_of_ended (f : OpenFile) (hline : Seamless line) : f.resume line = line := by
  have hall : ∀ i ∈ line, (!i.isSeam) = true := fun i hi => by simp [hline i hi]
  rw [resume, List.span_eq_takeWhile_dropWhile, List.dropWhile_eq_nil_iff.mpr hall]

/-- A file that stayed as it was goes on where it was. -/
theorem Holds.resume_advance (h : f.Holds unread) : (f.advance unread).resume unread = unread := by
  cases h with
  | ended hline => exact resume_of_ended _ hline
  | line hline hk =>
    rw [resume_of_line _ hline, items, lines_advance hline hk]
    rfl

/-- Whatever has become of a file, it goes on as one that is read in the middle. -/
theorem Holds.resume (h : f.Holds unread) (g : OpenFile) : g.Holds (g.resume unread) := by
  cases h with
  | ended hline =>
    rw [resume_of_ended g hline]
    exact .ended hline
  | line hline hk =>
    rw [resume_of_line g hline]
    exact .line (k := 0) hline (Nat.zero_le _)

/-- What is ahead of the file is what the tree of files has for it now. -/
def Current (f : OpenFile) (files : FileTree) : Prop :=
  ∀ bytes, files.find? f.place = some (.contents bytes) → f.ahead = bytes.drop f.offset

variable {files : FileTree}

theorem Current.advance (h : f.Current files) (unread : List Item) :
    (f.advance unread).Current files := by
  intro bytes hbytes
  have hahead := h bytes hbytes
  simp only [OpenFile.advance, skip]
  generalize (f.ahead.take _).length = n
  rw [hahead, List.drop_drop]

theorem Current.reread_eq (h : f.Current files) : f.reread files = f := by
  rw [reread]
  split
  · next bytes hbytes => rw [← h bytes hbytes]
  · rfl

theorem current_reread (f : OpenFile) (files : FileTree) : (f.reread files).Current files := by
  intro bytes hbytes
  have hplace : (f.reread files).place = f.place := by
    rw [reread]
    split <;> rfl
  rw [hplace] at hbytes
  simp only [reread, hbytes]

theorem current_openFile {path : String} (h : files.openFile? path = some f) : f.Current files := by
  intro bytes hbytes
  rw [FileTree.openFile?] at h
  split at h
  · split at h
    · next place _ contents hcontents =>
      cases h
      cases hcontents.symm.trans hbytes
      rfl
    · cases h
  · cases h

end OpenFile

end Forth
