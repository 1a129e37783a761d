import Forth.Dictionary.Word
import Forth.Failure

/-! # The dictionary

A dictionary binds names to words. Names are unique and the last definition of
a name wins. The words stand in the order of the bytes of their names, so two
dictionaries with the same words under the same names are equal.
-/

namespace Forth

/-- Puts a word in its place, instead of a word of the same name. -/
def insertWord {β : Type} (w : Word β) : List (Word β) → List (Word β)
  | [] => [w]
  | v :: rest =>
    if w.name < v.name then w :: v :: rest
    else if w.name = v.name then w :: rest
    else v :: insertWord w rest

theorem mem_insertWord {β : Type} {w v : Word β} {words : List (Word β)}
    (h : v ∈ insertWord w words) : v = w ∨ v ∈ words := by
  induction words with
  | nil => simpa [insertWord] using h
  | cons u rest ih =>
    rw [insertWord] at h
    split at h
    · simpa using h
    · split at h
      · rcases List.mem_cons.mp h with h | h
        · exact .inl h
        · exact .inr (List.mem_cons_of_mem _ h)
      · rcases List.mem_cons.mp h with h | h
        · exact .inr (h ▸ List.mem_cons_self)
        · exact (ih h).imp id (List.mem_cons_of_mem _)

theorem name_lt_of_not_lt {a b : String} (hlt : ¬a < b) (hne : ¬a = b) : b < a :=
  Classical.byContradiction fun h =>
    hne (String.le_antisymm (String.not_lt.mp h) (String.not_lt.mp hlt))

theorem sorted_insertWord {β : Type} {w : Word β} {words : List (Word β)}
    (h : words.Pairwise fun u v => u.name < v.name) :
    (insertWord w words).Pairwise fun u v => u.name < v.name := by
  induction words with
  | nil => simp [insertWord]
  | cons u rest ih =>
    obtain ⟨hu, hrest⟩ := List.pairwise_cons.mp h
    rw [insertWord]
    split
    · rename_i hlt
      refine List.pairwise_cons.mpr ⟨fun v hv => ?_, h⟩
      rcases List.mem_cons.mp hv with rfl | hv
      · exact hlt
      · exact String.lt_trans hlt (hu v hv)
    · split
      · rename_i heq
        exact List.pairwise_cons.mpr ⟨fun v hv => heq ▸ hu v hv, hrest⟩
      · rename_i hlt hne
        refine List.pairwise_cons.mpr ⟨fun v hv => ?_, ih hrest⟩
        rcases mem_insertWord hv with rfl | hv
        · exact name_lt_of_not_lt hlt hne
        · exact hu v hv

structure Dictionary (β : Type) where
  words : List (Word β) := []
  sorted : words.Pairwise fun u v => u.name < v.name := by exact .nil

namespace Dictionary

variable {β : Type}

def empty : Dictionary β := {}

def size (d : Dictionary β) : Nat := d.words.length

def find? (d : Dictionary β) (name : String) : Option (Word β) :=
  d.words.find? (·.name = name)

def define (d : Dictionary β) (w : Word β) : Dictionary β where
  words := insertWord w d.words
  sorted := sorted_insertWord d.sorted

/-- Binds `name` to a copy of the word that `existing` is bound to now. -/
def addAlias (d : Dictionary β) (name existing : String) : Except Failure (Dictionary β) :=
  match d.find? existing with
  | some w => .ok (d.define (w.renamed name))
  | none => .error { cause := .noSuchWord existing }

end Dictionary

end Forth
