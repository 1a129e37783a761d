import Forth.Dictionary.Listing
import Forth.Proofs.Dictionary.Binding

/-! # Dictionaries up to the places of their words

Two dictionaries are alike if they differ at most in where their words were
defined, and there only as far as a view of places does not tell. Every lookup
and every definition keeps them alike, and the listing shows no difference.
-/

namespace Forth

namespace Word

variable {β : Type} {view : Location → Location} {v w : Word β}

/-- The word with its place as it is seen. -/
def seen (view : Location → Location) (w : Word β) : Word β :=
  { w with location := w.location.map view }

@[simp] theorem name_seen (view : Location → Location) (w : Word β) :
    (w.seen view).name = w.name := rfl

@[simp] theorem seen_id (w : Word β) : w.seen id = w := by
  simp [seen]

@[simp] theorem row_seen (width : Nat) (view : Location → Location) (w : Word β) :
    (w.seen view).row width = w.row width := rfl

theorem name_eq_of_seen (h : v.seen view = w.seen view) : v.name = w.name :=
  (Word.mk.inj h).1

theorem immediate_eq_of_seen (h : v.seen view = w.seen view) : v.immediate = w.immediate :=
  (Word.mk.inj h).2.2.1

theorem behavior_eq_of_seen (h : v.seen view = w.seen view) : v.behavior = w.behavior :=
  (Word.mk.inj h).2.2.2.2.2.2

end Word

theorem map_insertWord {β : Type} (view : Location → Location) (w : Word β)
    (words : List (Word β)) :
    (insertWord w words).map (Word.seen view) =
      insertWord (w.seen view) (words.map (Word.seen view)) := by
  induction words with
  | nil => rfl
  | cons v rest ih =>
    rw [List.map_cons, insertWord, insertWord, Word.name_seen, Word.name_seen]
    split
    · rfl
    · split
      · rfl
      · rw [List.map_cons, ih]

theorem find?_map_seen {β : Type} (view : Location → Location) (name : String)
    (words : List (Word β)) :
    (words.map (Word.seen view)).find? (·.name = name) =
      (words.find? (·.name = name)).map (Word.seen view) := by
  rw [List.find?_map]
  rfl

def Token.seen (view : Location → Location) (t : Token) : Token :=
  { t with location := view t.location }

@[simp] theorem Token.text_seen (view : Location → Location) (t : Token) :
    (t.seen view).text = t.text := rfl

/-- The tokens have the same text, and their places are seen as the same. -/
structure Token.Alike (view : Location → Location) (t u : Token) : Prop where
  text : t.text = u.text
  location : view t.location = view u.location

namespace Dictionary

section Words

variable {β : Type} {view : Location → Location} {d e : Dictionary β} {v w : Word β}

def Alike (view : Location → Location) (d e : Dictionary β) : Prop :=
  d.words.map (Word.seen view) = e.words.map (Word.seen view)

theorem Alike.refl (view : Location → Location) (d : Dictionary β) : d.Alike view d := rfl

theorem ext_words (h : d.words = e.words) : d = e := by
  cases d
  cases e
  cases h
  rfl

theorem eq_of_alike_id (h : d.Alike id e) : d = e := by
  apply ext_words
  simpa [Alike, funext Word.seen_id] using h

theorem Alike.define (h : d.Alike view e) (hw : v.seen view = w.seen view) :
    (d.define v).Alike view (e.define w) := by
  have hwords : d.words.map (Word.seen view) = e.words.map (Word.seen view) := h
  change (insertWord v d.words).map (Word.seen view) = (insertWord w e.words).map (Word.seen view)
  rw [map_insertWord, map_insertWord, hw, hwords]

theorem Alike.find? (h : d.Alike view e) (name : String) :
    (d.find? name).map (Word.seen view) = (e.find? name).map (Word.seen view) := by
  have hwords : d.words.map (Word.seen view) = e.words.map (Word.seen view) := h
  rw [Dictionary.find?, Dictionary.find?, ← find?_map_seen, ← find?_map_seen, hwords]

theorem Alike.map_eq {γ : Type} (h : d.Alike view e) (f : Word β → γ)
    (hf : ∀ w : Word β, f (w.seen view) = f w) : d.words.map f = e.words.map f := by
  have hwords := congrArg (List.map f) (show d.words.map (Word.seen view) = _ from h)
  simpa [Function.comp_def, hf] using hwords

theorem Alike.listing (h : d.Alike view e) : d.listing = e.listing := by
  have hwidth : d.nameWidth = e.nameWidth :=
    congrArg (List.foldl max 0) (h.map_eq (·.name.utf8ByteSize) fun _ => rfl)
  have hsize : d.size = e.size := by
    have hlength := congrArg List.length (h.map_eq (·.name) fun _ => rfl)
    rwa [List.length_map, List.length_map] at hlength
  have hrows := h.map_eq (Word.row d.nameWidth) (Word.row_seen d.nameWidth view)
  rw [Dictionary.listing, Dictionary.listing, render, render, hsize, hrows, hwidth]

end Words

section Resolve

variable {κ : Type} {view : Location → Location} {d e : Dictionary (Behavior κ)} {t u : Token}

theorem Alike.resolve (h : d.Alike view e) (ht : t.Alike view u) :
    (d.resolve t).map (Word.seen view) = (e.resolve u).map (Word.seen view) := by
  have hfind := h.find? t.text
  have hliteral (v : Value) : (t.literalWord v : Word (Behavior κ)).seen view =
      (u.literalWord v).seen view := by
    simp [Token.literalWord, Word.seen, ht.text, ht.location]
  rw [Dictionary.resolve, Dictionary.resolve, ← ht.text]
  rw [ht.text] at hfind
  cases hd : d.find? u.text with
  | some v =>
    cases he : e.find? u.text with
    | some w => simpa [hd, he, ht.text] using hfind
    | none => simp [hd, he] at hfind
  | none =>
    cases he : e.find? u.text with
    | some w => simp [hd, he] at hfind
    | none =>
      rw [ht.text, hd, he]
      cases Value.ofText? u.text with
      | none => rfl
      | some v => exact congrArg some (hliteral v)

/-- Alike tokens refer to words that are alike, or neither of them refers to any. -/
theorem Alike.resolve_cases (h : d.Alike view e) (ht : t.Alike view u) :
    (d.resolve t = none ∧ e.resolve u = none) ∨
      ∃ v w, d.resolve t = some v ∧ e.resolve u = some w ∧ v.seen view = w.seen view := by
  have hresolve := h.resolve ht
  cases hd : d.resolve t with
  | none =>
    rw [hd] at hresolve
    exact .inl ⟨rfl, Option.map_eq_none_iff.mp hresolve.symm⟩
  | some v =>
    rw [hd] at hresolve
    obtain ⟨w, hw, hseen⟩ := Option.map_eq_some_iff.mp hresolve.symm
    exact .inr ⟨v, w, rfl, hw, hseen.symm⟩

end Resolve

section Seen

variable {β κ : Type} {view : Location → Location}

/-- The dictionary with the places of its words as they are seen. -/
def seen (view : Location → Location) (d : Dictionary β) : Dictionary β where
  words := d.words.map (Word.seen view)
  sorted := List.pairwise_map.mpr d.sorted

theorem define_seen (view : Location → Location) (d : Dictionary β) (w : Word β) :
    (d.seen view).define (w.seen view) = (d.define w).seen view :=
  ext_words (map_insertWord view w d.words).symm

theorem definePrimitive_seen (d : Dictionary (Behavior κ)) (p : Primitive) :
    (d.seen view).definePrimitive p = (d.definePrimitive p).seen view := by
  have hword (w : Word (Behavior κ)) (hw : w.seen view = w) (d : Dictionary (Behavior κ)) :
      (d.seen view).define w = (d.define w).seen view := by
    rw [← define_seen, hw]
  rw [definePrimitive, definePrimitive, hword p.word rfl]
  cases p.entry.symbol with
  | none => rfl
  | some symbol => exact hword (p.word.renamed symbol) rfl _

/-- The words of the language have no place. -/
theorem definePrimitives_seen (view : Location → Location) (d : Dictionary (Behavior κ)) :
    (d.seen view).definePrimitives = d.definePrimitives.seen view :=
  List.foldl_hom (seen view) definePrimitive_seen

theorem find?_seen (d : Dictionary β) (name : String) :
    (d.seen view).find? name = (d.find? name).map (Word.seen view) :=
  find?_map_seen view name d.words

theorem resolve_seen (d : Dictionary (Behavior κ)) (t : Token) :
    (d.seen view).resolve (t.seen view) = (d.resolve t).map (Word.seen view) := by
  rw [resolve, resolve, Token.text_seen, find?_seen]
  cases d.find? t.text with
  | some w => rfl
  | none =>
    cases Value.ofText? t.text with
    | none => rfl
    | some v => rfl

theorem listing_seen (view : Location → Location) (d : Dictionary β) :
    (d.seen view).listing = d.listing := by
  simp [listing, render, seen, size, nameWidth, Function.comp_def]

end Seen

end Dictionary

end Forth
