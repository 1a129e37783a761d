import Forth.Proofs.Dictionary.Binding

/-! # Dictionaries that only programs add to

A program binds names to the words that it defines. It cannot unbind a name, make
a word immediate, or give a primitive another name. What it adds to holds the
primitives under the names that they were registered with, and defined words.
-/

namespace Forth

section Words

variable {β : Type}

theorem find?_of_mem {w : Word β} {words : List (Word β)}
    (hsorted : words.Pairwise fun u v => u.name < v.name) (hw : w ∈ words) :
    words.find? (·.name = w.name) = some w := by
  induction words with
  | nil => cases hw
  | cons v rest ih =>
    obtain ⟨hv, hrest⟩ := List.pairwise_cons.mp hsorted
    rcases List.mem_cons.mp hw with rfl | hmem
    · simp
    · have hne : v.name ≠ w.name := String.ne_of_lt (hv w hmem)
      rw [List.find?_cons_of_neg (by simpa using hne)]
      exact ih hrest hmem

theorem length_le_insertWord (w : Word β) (words : List (Word β)) :
    words.length ≤ (insertWord w words).length := by
  induction words with
  | nil => exact Nat.zero_le _
  | cons v rest ih =>
    rw [insertWord]
    split
    · simp
    · split
      · simp
      · simpa using ih

end Words

variable {κ : Type}

/-- The primitive is registered under the name. -/
def Primitive.Names (p : Primitive) (name : String) : Prop :=
  name = p.entry.name ∨ p.entry.symbol = some name

inductive Word.Regular : Word (Behavior κ) → Prop
  | registered {p : Primitive} {name : String} : p.Names name → Regular (p.word.renamed name)
  | defined {w : Word (Behavior κ)} : w.kind = .scripted → w.immediate = false → w.name ≠ "" →
      (∀ c ∈ w.name.toList, isBlank c = false) → Regular w

theorem Primitive.regular_word (p : Primitive) : (p.word : Word (Behavior κ)).Regular :=
  .registered (show p.Names p.entry.name from .inl rfl)

theorem Primitive.eq_comment_of_immediate {p : Primitive} (h : p.entry.immediate = true) :
    p = .comment := by
  cases p <;> first | rfl | cases h

theorem Primitive.eq_commentName_of_names {name : String} (h : Primitive.comment.Names name) :
    name = Dictionary.commentName := by
  rcases h with h | h
  · exact h
  · cases h

namespace Dictionary

section Bindings

variable {β : Type} {d e f : Dictionary β} {name : String} {w : Word β}

theorem find?_eq_some_iff : d.find? name = some w ↔ w ∈ d.words ∧ w.name = name := by
  constructor
  · intro h
    exact ⟨List.mem_of_find?_eq_some h, name_eq_of_find? h⟩
  · rintro ⟨hw, rfl⟩
    exact find?_of_mem d.sorted hw

/-- Every name of the first dictionary is one of the second. -/
structure Extends (d e : Dictionary β) : Prop where
  names : ∀ name, (d.find? name).isSome = true → (e.find? name).isSome = true
  size : d.size ≤ e.size

theorem Extends.refl (d : Dictionary β) : d.Extends d :=
  ⟨fun _ h => h, Nat.le_refl d.size⟩

theorem Extends.trans (h : d.Extends e) (k : e.Extends f) : d.Extends f :=
  ⟨fun name hname => k.names name (h.names name hname), Nat.le_trans h.size k.size⟩

theorem extends_define (d : Dictionary β) (w : Word β) : d.Extends (d.define w) where
  names name h := by
    rw [find?_define]
    split
    · rfl
    · exact h
  size := length_le_insertWord w d.words

end Bindings

variable {d : Dictionary (Behavior κ)}

def Regular (d : Dictionary (Behavior κ)) : Prop :=
  ∀ name w, d.find? name = some w → w.Regular

theorem regular_empty : (empty : Dictionary (Behavior κ)).Regular := by
  intro name w h
  cases h

theorem Regular.define (hd : d.Regular) {w : Word (Behavior κ)} (hw : w.Regular) :
    (d.define w).Regular := by
  intro name v hv
  rw [find?_define] at hv
  split at hv
  · cases hv
    exact hw
  · exact hd name v hv

theorem Regular.definePrimitive (hd : d.Regular) (p : Primitive) :
    (d.definePrimitive p).Regular := by
  have hword := hd.define p.regular_word
  rw [Dictionary.definePrimitive]
  split
  · rename_i symbol hsymbol
    exact hword.define (.registered (.inr hsymbol))
  · exact hword

theorem Regular.definePrimitives (hd : d.Regular) : d.definePrimitives.Regular := by
  rw [Dictionary.definePrimitives]
  generalize Primitive.all = ps
  induction ps generalizing d with
  | nil => exact hd
  | cons p ps ih =>
    apply ih
    exact hd.definePrimitive p

/-- What a dictionary holds that only programs have added to. -/
structure WellFormed (d : Dictionary (Behavior κ)) : Prop where
  /-- Every word is found under its own name, and under no other. -/
  names : ∀ name w, d.find? name = some w ↔ w ∈ d.words ∧ w.name = name
  kinds : ∀ name w, d.find? name = some w → w.kind ≠ .literal
  /-- What belongs to the language is a primitive under one of its names, with all that it was
  registered with. -/
  native : ∀ name w, d.find? name = some w → w.kind = .native →
    ∃ p : Primitive, p.Names name ∧ w = p.word.renamed name
  /-- Every other word is defined, and its name can be spelled. -/
  defined : ∀ name w, d.find? name = some w → w.kind ≠ .native →
    w.kind = .scripted ∧ w.immediate = false ∧ name ≠ "" ∧ ∀ c ∈ name.toList, isBlank c = false
  immediate : ∀ name w, d.find? name = some w → w.immediate = true →
    name = commentName ∧ w.behavior = .primitive .comment

theorem Regular.wellFormed (hd : d.Regular) : d.WellFormed where
  names _ _ := find?_eq_some_iff
  kinds name w hw := by
    cases hd name w hw with
    | registered hp => exact nofun
    | defined hkind => simp [hkind]
  native name w hw hkind := by
    obtain rfl := name_eq_of_find? hw
    cases hd _ w hw with
    | @registered p name hp => exact ⟨p, hp, rfl⟩
    | defined hscripted => simp [hscripted] at hkind
  defined name w hw hkind := by
    obtain rfl := name_eq_of_find? hw
    cases hd _ w hw with
    | registered hp => exact absurd rfl hkind
    | defined hscripted hnormal hne hblank => exact ⟨hscripted, hnormal, hne, hblank⟩
  immediate name w hw himmediate := by
    obtain rfl := name_eq_of_find? hw
    cases hd _ w hw with
    | @registered p name hp =>
      obtain rfl : p = .comment := Primitive.eq_comment_of_immediate himmediate
      exact ⟨Primitive.eq_commentName_of_names hp, rfl⟩
    | defined _ hnormal => simp [hnormal] at himmediate

end Dictionary

end Forth
