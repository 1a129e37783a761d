import Forth.Dictionary.Listing
import Forth.Proofs.Dictionary.History
import Forth.Proofs.Text.ByteOrder
import Mathlib.Data.List.Forall2

/-! # What the listing shows

A listing is the text of a table with one row for each name. The rules of such a
table say which names it has and in which order, how wide their column is, and
what stands where in a row. They speak only of what the names are bound to and
leave no choice, so each dictionary has one table: it does not matter in which
order words were defined, nor in which order the dictionary hands them out.

A table can ask for a column that is too wide. Then there is no listing, and the
program that asks for it aborts.
-/

namespace Forth

variable {β : Type}

namespace Word

variable {v w : Word β} {width : Nat} {row row' : String}

/-- What a listing shows of a word, besides its name. -/
def shown (w : Word β) : Bool × String × String := (w.immediate, w.signature, w.description)

/-- A row shows the word, with its name in a column of the given width. -/
structure ShownIn (w : Word β) (width : Nat) (row : String) : Prop where
  /-- No name exceeds its column. -/
  fits : w.name.length ≤ width
  name : row.toList.take width = w.name.toList.rightpad width ' '
  gap : (row.toList.drop width).take 2 = [' ', ' ']
  /-- All marks stand at the same place and are equally wide. -/
  mark : (row.toList.drop (width + 2)).take 9 =
    if w.immediate then "immediate".toList else List.replicate 9 ' '
  help : row.toList.drop (width + 11) =
    [' ', ' '] ++ w.signature.toList.rightpad 12 ' ' ++ "  --  ".toList ++
      w.description.toList ++ ['\n']

theorem ShownIn.congr (hname : v.name = w.name) (hshown : v.shown = w.shown)
    (h : v.ShownIn width row) : w.ShownIn width row := by
  simp only [shown, Prod.mk.injEq] at hshown
  obtain ⟨himmediate, hsignature, hdescription⟩ := hshown
  refine ⟨hname ▸ h.fits, ?_, h.gap, ?_, ?_⟩
  · rw [h.name, hname]
  · rw [h.mark, himmediate]
  · rw [h.help, hsignature, hdescription]

theorem ShownIn.unique (h : w.ShownIn width row) (h' : w.ShownIn width row') : row = row' := by
  have hparts (text : List Char) : text =
      text.take width ++ ((text.drop width).take 2 ++ ((text.drop (width + 2)).take 9 ++
        text.drop (width + 11))) := by
    have hlast : text.drop (width + 11) = (text.drop (width + 2)).drop 9 := by
      rw [List.drop_drop]
    rw [hlast, List.take_append_drop, ← List.drop_drop, List.take_append_drop,
      List.take_append_drop]
  apply String.ext
  rw [hparts row.toList, hparts row'.toList, h.name, h'.name, h.gap, h'.gap, h.mark, h'.mark,
    h.help, h'.help]

end Word

theorem toList_padRight (width : Nat) (text : String) :
    (padRight width text).toList = text.toList.rightpad width ' ' := by
  rw [padRight, String.pushn_eq_repeat_push, List.rightpad, String.length_toList]
  generalize width - text.length = missing
  induction missing with
  | zero => simp [Nat.repeat]
  | succ missing ih =>
    rw [Nat.repeat, String.toList_push, ih, List.append_assoc, ← List.replicate_succ']

theorem Word.toList_row (width : Nat) (w : Word β) :
    (w.row width).toList =
      w.name.toList.rightpad width ' ' ++ ([' ', ' '] ++ (w.mark.toList ++
        ([' ', ' '] ++ w.signature.toList.rightpad 12 ' ' ++ "  --  ".toList ++
          w.description.toList ++ ['\n']))) := by
  simp [Word.row, toList_padRight, toString]

theorem Word.toList_mark (w : Word β) :
    w.mark.toList = if w.immediate then "immediate".toList else List.replicate 9 ' ' := by
  rw [Word.mark]
  split <;> rfl

/-- A column that is wide enough for the bytes of a name is wide enough for its characters. -/
theorem Word.shownIn_row {w : Word β} {width : Nat} (h : (Utf8.bytes w.name).length ≤ width) :
    w.ShownIn width (w.row width) := by
  have hfits : w.name.length ≤ width := Nat.le_trans (Utf8.length_le_length_bytes w.name) h
  have hname : (w.name.toList.rightpad width ' ').length = width := by
    rw [List.length_rightpad, String.length_toList, Nat.max_eq_left hfits]
  have hmark : w.mark.toList.length = 9 := by
    rw [Word.toList_mark]
    split <;> rfl
  have hdrop (n : Nat) (rest : List Char) :
      (w.name.toList.rightpad width ' ' ++ rest).drop (width + n) = rest.drop n := by
    rw [← List.drop_drop, List.drop_left' hname]
  refine ⟨hfits, ?_, ?_, ?_, ?_⟩
  · rw [Word.toList_row, List.take_left' hname]
  · rw [Word.toList_row, List.drop_left' hname]
    rfl
  · rw [Word.toList_row, hdrop, ← Word.toList_mark]
    exact List.take_left' hmark
  · rw [Word.toList_row, hdrop]
    exact List.drop_left' hmark

theorem foldl_max_le_iff (sizes : List Nat) (least bound : Nat) :
    sizes.foldl max least ≤ bound ↔ least ≤ bound ∧ ∀ size ∈ sizes, size ≤ bound := by
  induction sizes generalizing least with
  | nil => simp
  | cons size sizes ih =>
    rw [List.foldl_cons, ih, Nat.max_le, List.forall_mem_cons, and_assoc]

/-- What a listing is made of. -/
structure Table where
  names : List String
  width : Nat
  rows : List String

/-- How many words there are, an empty line, and the rows. -/
def Table.text (t : Table) : String :=
  s!"{t.names.length} words defined.\n\n" ++ String.join t.rows

/-- The text, if the column of the names is not too wide. -/
def Table.listing (t : Table) : Except Failure String :=
  if t.width ≤ Dictionary.widestColumn then .ok t.text else .error Dictionary.tooWide

/-- The rules for the table of a dictionary. -/
structure Table.Of (t : Table) (d : Dictionary β) : Prop where
  /-- The names are those that are bound. -/
  complete : ∀ name, name ∈ t.names ↔ d.find? name ≠ none
  ordered : (t.names.map Utf8.bytes).Pairwise (· < ·)
  /-- The width is the number of bytes of the longest name. -/
  widest : ∀ bound, t.width ≤ bound ↔ ∀ name ∈ t.names, (Utf8.bytes name).length ≤ bound
  /-- Each name has one row, which shows what the name is bound to. -/
  rows : List.Forall₂ (fun name row => ∃ w, d.find? name = some w ∧ w.ShownIn t.width row)
    t.names t.rows

namespace Dictionary

variable {d e : Dictionary β} {t u : Table} {words : List (Word β)} {name : String} {w : Word β}

/-- The dictionaries bind the same names, and a listing shows the same of what they are bound to. -/
def ShowsSame (d e : Dictionary β) : Prop :=
  ∀ name, (d.find? name).map Word.shown = (e.find? name).map Word.shown

theorem ShowsSame.exists_of_find? (h : d.ShowsSame e) (hw : d.find? name = some w) :
    ∃ v, e.find? name = some v ∧ w.shown = v.shown := by
  have hname := h name
  rw [hw, Option.map_some] at hname
  obtain ⟨v, hv, hshown⟩ := Option.map_eq_some_iff.mp hname.symm
  exact ⟨v, hv, hshown.symm⟩

theorem ShowsSame.find?_ne_none_iff (h : d.ShowsSame e) :
    d.find? name ≠ none ↔ e.find? name ≠ none := by
  rw [ne_eq, ne_eq, ← Option.map_eq_none_iff (f := Word.shown), h name, Option.map_eq_none_iff]

/-- The rules speak only of what is shown. -/
theorem ShowsSame.tableOf (h : d.ShowsSame e) (ht : t.Of d) : t.Of e where
  complete name := (ht.complete name).trans h.find?_ne_none_iff
  ordered := ht.ordered
  widest := ht.widest
  rows := by
    refine ht.rows.imp fun name row hrow => ?_
    obtain ⟨w, hw, hshown⟩ := hrow
    obtain ⟨v, hv, hsame⟩ := h.exists_of_find? hw
    have hname : w.name = v.name := by
      rw [name_eq_of_find? hw, name_eq_of_find? hv]
    exact ⟨v, hv, hshown.congr hname hsame⟩

/-- A list of names is determined by its members and the order. -/
theorem eq_of_ordered {names names' : List String}
    (hnames : (names.map Utf8.bytes).Pairwise (· < ·))
    (hnames' : (names'.map Utf8.bytes).Pairwise (· < ·))
    (hmem : ∀ name, name ∈ names ↔ name ∈ names') : names = names' := by
  have hsorted := List.pairwise_map.mp hnames
  have hsorted' := List.pairwise_map.mp hnames'
  have hne {a b : String} (hlt : Utf8.bytes a < Utf8.bytes b) : a ≠ b := by
    rintro rfl
    exact List.lt_irrefl _ hlt
  have hperm : names.Perm names' :=
    (List.perm_ext_iff_of_nodup (hsorted.imp hne) (hsorted'.imp hne)).mpr hmem
  apply hperm.eq_of_pairwise _ hsorted hsorted'
  intro a b _ _ hab hba
  exact absurd hba (List.lt_asymm hab)

/-- The rules leave no choice. -/
theorem tableOf_unique (ht : t.Of d) (hu : u.Of d) : t = u := by
  obtain ⟨names, width, rows⟩ := t
  obtain ⟨names', width', rows'⟩ := u
  have hnames : names = names' :=
    eq_of_ordered ht.ordered hu.ordered fun name =>
      (ht.complete name).trans (hu.complete name).symm
  subst hnames
  have hwidth : width = width' := by
    apply Nat.le_antisymm
    · exact (ht.widest width').mpr ((hu.widest width').mp (Nat.le_refl width'))
    · exact (hu.widest width).mpr ((ht.widest width).mp (Nat.le_refl width))
  subst hwidth
  have hrows : rows = rows' := by
    refine List.right_unique_forall₂' ?_ ht.rows hu.rows
    rintro name row row' ⟨w, hw, hrow⟩ ⟨v, hv, hrow'⟩
    rw [hw] at hv
    cases hv
    exact hrow.unique hrow'
  subst hrows
  rfl

section Listing

/-- The table of which the listing is the text. -/
def table (d : Dictionary β) : Table where
  names := d.names
  width := d.nameWidth
  rows := d.words.map (Word.row d.nameWidth)

theorem listing_table (d : Dictionary β) : d.table.listing = d.listing := by
  have htext : d.table.text = d.render := by
    rw [Table.text, render, table, names, List.length_map, size]
  rw [Table.listing, listing, htext]
  rfl

theorem nameWidth_le_iff {bound : Nat} :
    d.nameWidth ≤ bound ↔ ∀ name ∈ d.names, (Utf8.bytes name).length ≤ bound := by
  simp [nameWidth, names, foldl_max_le_iff, Utf8.length_bytes]

theorem tableOf_table (d : Dictionary β) : d.table.Of d where
  complete _ := mem_names_iff
  ordered := by
    refine List.pairwise_map.mpr (List.pairwise_map.mpr (d.sorted.imp fun hlt => ?_))
    exact Utf8.bytes_lt_iff.mpr hlt
  widest _ := nameWidth_le_iff
  rows := by
    refine List.forall₂_map_left_iff.mpr (List.forall₂_map_right_iff.mpr
      (List.forall₂_same.mpr fun w hw => ⟨w, ?_, ?_⟩))
    · exact find?_eq_some_iff.mpr ⟨hw, rfl⟩
    · apply Word.shownIn_row
      exact nameWidth_le_iff.mp (Nat.le_refl d.nameWidth) w.name (List.mem_map_of_mem hw)

end Listing

/-- The words of the dictionary, each once, in any order. -/
structure Enumerates (d : Dictionary β) (words : List (Word β)) : Prop where
  nodup : (words.map Word.name).Nodup
  mem : ∀ w, w ∈ words ↔ d.find? w.name = some w

theorem Enumerates.find?_eq (h : d.Enumerates words) (name : String) :
    words.find? (·.name = name) = d.find? name := by
  have hfound {w : Word β} (hw : words.find? (·.name = name) = some w) : d.find? name = some w := by
    have hname : w.name = name := by simpa using List.find?_some hw
    rw [← hname]
    exact (h.mem w).mp (List.mem_of_find?_eq_some hw)
  cases hw : words.find? (·.name = name) with
  | some w => exact (hfound hw).symm
  | none =>
    symm
    rw [Option.eq_none_iff_forall_ne_some]
    intro w hd
    have hname : w.name = name := name_eq_of_find? hd
    have hmem : w ∈ words := (h.mem w).mpr (hname ▸ hd)
    exact absurd hname (by simpa using List.find?_eq_none.mp hw w hmem)

theorem Enumerates.mem_names_iff (h : d.Enumerates words) :
    name ∈ words.map Word.name ↔ d.find? name ≠ none := by
  rw [← h.find?_eq, ne_eq, List.find?_eq_none]
  simp

end Dictionary

section OfWords

/-- The names in the order of their bytes. -/
def sortNames (names : List String) : List String :=
  names.mergeSort fun a b => decide (Utf8.bytes a ≤ Utf8.bytes b)

theorem mem_sortNames {names : List String} {name : String} :
    name ∈ sortNames names ↔ name ∈ names :=
  List.mem_mergeSort

theorem ordered_sortNames {names : List String} (h : names.Nodup) :
    ((sortNames names).map Utf8.bytes).Pairwise (· < ·) := by
  have hnodup : (sortNames names).Nodup := (List.mergeSort_perm names _).nodup_iff.mpr h
  have hsorted : (sortNames names).Pairwise
      fun a b => decide (Utf8.bytes a ≤ Utf8.bytes b) = true := by
    apply List.pairwise_mergeSort
    · simp only [decide_eq_true_eq, Utf8.bytes_le_iff]
      exact fun _ _ _ => String.le_trans
    · simp only [Bool.or_eq_true, decide_eq_true_eq, Utf8.bytes_le_iff]
      exact String.le_total
  refine List.pairwise_map.mpr (hsorted.imp₂ (fun a b hle hne => ?_) hnodup)
  have hab : a ≤ b := Utf8.bytes_le_iff.mp (of_decide_eq_true hle)
  rw [Utf8.bytes_lt_iff, ← String.not_le]
  exact fun hba => hne (String.le_antisymm hab hba)

theorem max?_getD_le_iff (sizes : List Nat) (bound : Nat) :
    sizes.max?.getD 0 ≤ bound ↔ ∀ size ∈ sizes, size ≤ bound := by
  cases sizes with
  | nil => simp
  | cons size sizes =>
    rw [List.max?_cons', Option.getD_some, foldl_max_le_iff, List.forall_mem_cons]

theorem forall₂_filterMap {α γ : Type} {R : α → γ → Prop} {f : α → Option γ} {xs : List α}
    (h : ∀ x ∈ xs, ∃ y, f x = some y ∧ R x y) : List.Forall₂ R xs (xs.filterMap f) := by
  induction xs with
  | nil => exact .nil
  | cons x xs ih =>
    obtain ⟨⟨y, hy, hxy⟩, hrest⟩ := List.forall_mem_cons.mp h
    rw [List.filterMap_cons_some hy]
    exact .cons hxy (ih hrest)

/-- The table made from the words in whatever order they come: the longest name is searched for,
the names are sorted, and each of them is looked up. -/
def Table.ofWords (words : List (Word β)) : Table :=
  let names := sortNames (words.map Word.name)
  let width := (words.map fun w => (Utf8.bytes w.name).length).max?.getD 0
  { names, width
    rows := names.filterMap fun name => (words.find? (·.name = name)).map (Word.row width) }

theorem Table.width_ofWords_le_iff {words : List (Word β)} {bound : Nat} :
    (Table.ofWords words).width ≤ bound ↔
      ∀ name ∈ (Table.ofWords words).names, (Utf8.bytes name).length ≤ bound := by
  simp [Table.ofWords, max?_getD_le_iff, mem_sortNames]

end OfWords

namespace Dictionary

variable {d e : Dictionary β} {words : List (Word β)} {name : String} {w : Word β}

theorem Enumerates.tableOf (h : d.Enumerates words) : (Table.ofWords words).Of d where
  complete name := mem_sortNames.trans h.mem_names_iff
  ordered := ordered_sortNames h.nodup
  widest _ := Table.width_ofWords_le_iff
  rows := by
    apply forall₂_filterMap
    intro name hname
    have hbound : d.find? name ≠ none := h.mem_names_iff.mp (mem_sortNames.mp hname)
    obtain ⟨w, hw⟩ := Option.ne_none_iff_exists'.mp hbound
    refine ⟨w.row (Table.ofWords words).width, ?_, w, hw, ?_⟩
    · rw [h.find?_eq, hw]
      rfl
    · apply Word.shownIn_row
      rw [name_eq_of_find? hw]
      exact Table.width_ofWords_le_iff.mp (Nat.le_refl _) name hname

/-- The dictionary after the edits, of which those that fail change nothing. -/
def after (d : Dictionary β) (log : Log β) : Dictionary β := log.foldl edited d

theorem ShowsSame.listing_eq (h : d.ShowsSame e) : d.listing = e.listing := by
  rw [← listing_table, ← listing_table,
    tableOf_unique (h.tableOf (tableOf_table d)) (tableOf_table e)]

theorem Enumerates.listing_ofWords (h : d.Enumerates words) :
    (Table.ofWords words).listing = d.listing := by
  rw [tableOf_unique h.tableOf (tableOf_table d), listing_table]

/-- No name that is bound has more bytes. -/
def NamesWithin (d : Dictionary β) (size : Nat) : Prop :=
  ∀ name, d.find? name ≠ none → (Utf8.bytes name).length ≤ size

theorem NamesWithin.define {size : Nat} (hd : d.NamesWithin size)
    (hw : (Utf8.bytes w.name).length ≤ size) : (d.define w).NamesWithin size := by
  intro name hname
  by_cases heq : name = w.name
  · exact heq ▸ hw
  · rw [find?_define_of_ne d w heq] at hname
    exact hd name hname

theorem listing_eq_tooWide_iff : d.listing = .error tooWide ↔ ¬d.NamesWithin widestColumn := by
  have hwidth : d.nameWidth ≤ widestColumn ↔ d.NamesWithin widestColumn := by
    simp only [nameWidth_le_iff, NamesWithin, mem_names_iff]
  rw [listing_eq_error_iff, ← hwidth, Nat.not_le]
  exact ⟨fun h => h.2, fun h => ⟨rfl, h⟩⟩

/-- The listing follows the rules, which leave no choice. -/
structure ListsCanonically (d : Dictionary β) : Prop where
  /-- It is the text of the only table that follows the rules, if its column is not too wide. -/
  tabulated : ∃ t : Table, d.listing = t.listing ∧ ∀ u : Table, u.Of d ↔ u = t
  /-- There is none, and the program aborts, exactly if some name is too long for any column. -/
  aborts_iff : (∃ failure, d.listing = .error failure ∧ failure.aborts = true) ↔
    ¬d.NamesWithin widestColumn
  /-- It does not matter in which order the dictionary hands out its words. -/
  enumerated : ∀ words, d.Enumerates words → (Table.ofWords words).listing = d.listing
  /-- Nor does it matter by which edits the words came to be there. -/
  edited : ∀ (e : Dictionary β) (log log' : Log β), (d.after log).ShowsSame (e.after log') →
    ∀ words, (e.after log').Enumerates words →
      (Table.ofWords words).listing = (d.after log).listing

theorem canonical_listing (d : Dictionary β) : d.ListsCanonically where
  tabulated := by
    refine ⟨d.table, d.listing_table.symm, fun u => ⟨fun hu => ?_, ?_⟩⟩
    · exact tableOf_unique hu (tableOf_table d)
    · rintro rfl
      exact tableOf_table d
  aborts_iff := by
    rw [← listing_eq_tooWide_iff]
    constructor
    · rintro ⟨failure, hfailed, -⟩
      obtain ⟨rfl, -⟩ := listing_eq_error_iff.mp hfailed
      exact hfailed
    · exact fun hwide => ⟨tooWide, hwide, rfl⟩
  enumerated _ hwords := hwords.listing_ofWords
  edited _ _ _ h _ hwords := by
    rw [hwords.listing_ofWords, h.listing_eq]

/-- A name of one character and two bytes, which stands behind a name of one byte. -/
theorem canonical_listing_reordered :
    let log : Log Nat :=
      [.define { name := "é", immediate := true, behavior := 0 }, .copy "x" "y",
        .define { name := "z", signature := "a --", description := "Drop.", behavior := 1 }]
    let accented : Word Nat := { name := "é", immediate := true, behavior := 2 }
    let plain : Word Nat :=
      { name := "z", signature := "a --", description := "Drop.", behavior := 3 }
    let log' : Log Nat := [.define plain, .copy "é" "z", .define accented]
    (empty.after log).ShowsSame (empty.after log') ∧
      (empty.after log').Enumerates [accented, plain] ∧
      (Table.ofWords [accented, plain]).listing =
        .ok ("2 words defined.\n\n" ++ "z              a --          --  Drop.\n" ++
          "é   immediate                --  \n") := by
  intro log accented plain log'
  have hlog (name : String) : (empty.after log).find? name =
      if name = "z" then some { plain with behavior := 1 }
      else if name = "é" then some { accented with behavior := 0 } else none := by
    change (define (edited (empty.define _) (.copy "x" "y")) _).find? name = _
    rw [edited_copy_of_find?_eq_none rfl, find?_define, find?_define]
    rfl
  have hlog' (name : String) : (empty.after log').find? name =
      if name = "é" then some accented else if name = "z" then some plain else none := by
    change (define (edited (empty.define plain) (.copy "é" "z")) accented).find? name = _
    rw [edited_copy_of_find? (show _ = some plain from rfl), find?_define]
    refine ite_congr rfl (fun _ => rfl) fun hne => ?_
    rw [find?_define_of_ne _ _ hne, find?_define]
    rfl
  have hsame : (empty.after log).ShowsSame (empty.after log') := by
    intro name
    rw [hlog, hlog']
    by_cases hz : name = "z"
    · subst hz
      rfl
    · rw [if_neg hz, if_neg hz]
      split <;> rfl
  have hwords : (empty.after log').Enumerates [accented, plain] := by
    refine ⟨by decide, fun w => ?_⟩
    rw [hlog', List.mem_pair]
    constructor
    · rintro (rfl | rfl) <;> rfl
    · intro hw
      split_ifs at hw
      · exact .inl (Option.some.inj hw).symm
      · exact .inr (Option.some.inj hw).symm
  refine ⟨hsame, hwords, ?_⟩
  rw [(canonical_listing empty).edited empty log log' hsame _ hwords]
  decide +kernel

/-- A name of one byte more than a column can be wide. The rules have a table for it, but there is
no listing. -/
theorem not_listed_of_long_name :
    let long := String.ofList (List.replicate 65536 'a')
    let d : Dictionary Nat := empty.define { name := long, behavior := 0 }
    d.listing = .error tooWide ∧ tooWide.aborts = true ∧
      ∃ t : Table, t.Of d ∧ d.listing ≠ .ok t.text := by
  intro long d
  have hlong : widestColumn < (Utf8.bytes long).length := Utf8.le_length_bytes_replicate 65536 'a'
  have hbound : d.find? long ≠ none := by
    rw [find?_define_self]
    nofun
  have hlisting : d.listing = .error tooWide :=
    listing_eq_tooWide_iff.mpr fun hd => absurd (hd long hbound) (Nat.not_le.mpr hlong)
  refine ⟨hlisting, rfl, d.table, tableOf_table d, ?_⟩
  rw [hlisting]
  nofun

end Dictionary

end Forth
