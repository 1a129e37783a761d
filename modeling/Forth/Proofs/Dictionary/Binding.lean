import Forth.Dictionary.Resolve

/-! # What names are bound to

A definition changes the binding of one name. The dictionaries that arise from
the language's own words have at most one immediate word: the comment, under
its own name.
-/

namespace Forth

theorem find?_insertWord {β : Type} (w : Word β) (words : List (Word β)) (name : String) :
    (insertWord w words).find? (·.name = name) =
      if name = w.name then some w else words.find? (·.name = name) := by
  induction words with
  | nil =>
    by_cases h : name = w.name
    · simp [insertWord, h]
    · simp [insertWord, h, Ne.symm h]
  | cons v rest ih =>
    rw [insertWord]
    by_cases h : name = w.name
    · subst h
      split
      · simp
      · split
        · simp
        · rename_i hne
          rw [List.find?_cons_of_neg (by simpa using Ne.symm hne), ih]
          simp
    · have hw : ¬w.name = name := Ne.symm h
      split
      · simp [hw]
      · split
        · rename_i heq
          have hv : ¬v.name = name := heq ▸ hw
          simp [hw, hv]
        · rw [List.find?_cons, ih, List.find?_cons]
          simp [h]

def Behavior.isComment {κ : Type} : Behavior κ → Bool
  | primitive .comment => true
  | _ => false

theorem Behavior.isComment_iff {κ : Type} {b : Behavior κ} :
    b.isComment = true ↔ b = .primitive .comment := by
  constructor
  · intro h
    unfold isComment at h
    split at h
    · rfl
    · cases h
  · rintro rfl
    rfl

namespace Dictionary

section Bindings

variable {β : Type}

theorem find?_define (d : Dictionary β) (w : Word β) (name : String) :
    (d.define w).find? name = if name = w.name then some w else d.find? name :=
  find?_insertWord w d.words name

@[simp] theorem find?_define_self (d : Dictionary β) (w : Word β) :
    (d.define w).find? w.name = some w := by
  simp [find?_define]

theorem find?_define_of_ne (d : Dictionary β) (w : Word β) {name : String} (h : name ≠ w.name) :
    (d.define w).find? name = d.find? name := by
  simp [find?_define, h]

theorem name_eq_of_find? {d : Dictionary β} {name : String} {w : Word β}
    (h : d.find? name = some w) : w.name = name := by
  simpa using List.find?_some h

end Bindings

variable {κ : Type} {d : Dictionary (Behavior κ)}

def commentName : String := "\\"

/-- Whether `\` is still bound to the comment of the language. -/
def bindsComment (d : Dictionary (Behavior κ)) : Bool :=
  (d.find? commentName).any (·.behavior.isComment)

theorem bindsComment_iff :
    d.bindsComment = true ↔
      ∃ w, d.find? commentName = some w ∧ w.behavior = .primitive .comment := by
  rw [bindsComment, Option.any_eq_true]
  simp only [Behavior.isComment_iff]

/-- The comment of the language is the only immediate word, and only under its own name. -/
def Standard (d : Dictionary (Behavior κ)) : Prop :=
  ∀ name w, d.find? name = some w →
    (w.immediate = true ↔ name = commentName ∧ w.behavior = .primitive .comment)

theorem standard_empty : (empty : Dictionary (Behavior κ)).Standard := by
  intro name w h
  cases h

theorem Standard.define (hd : d.Standard) {w : Word (Behavior κ)}
    (hw : w.immediate = true ↔ w.name = commentName ∧ w.behavior = .primitive .comment) :
    (d.define w).Standard := by
  intro name v hv
  rw [find?_define] at hv
  split at hv
  · rename_i hname
    cases hv
    rwa [hname]
  · exact hd name v hv

theorem Standard.definePrimitive (hd : d.Standard) (p : Primitive) :
    (d.definePrimitive p).Standard := by
  have hword : (d.define p.word).Standard := by
    refine hd.define ?_
    cases p <;> simp [Primitive.word, Primitive.entry, commentName]
  rw [Dictionary.definePrimitive]
  split
  · rename_i symbol hsymbol
    refine hword.define ?_
    cases p <;> simp_all [Primitive.word, Primitive.entry, Word.renamed]
  · exact hword

theorem Standard.definePrimitives (hd : d.Standard) : d.definePrimitives.Standard := by
  rw [Dictionary.definePrimitives]
  generalize Primitive.all = ps
  induction ps generalizing d with
  | nil => exact hd
  | cons p ps ih => exact ih (hd.definePrimitive p)

theorem find?_definePrimitives (d : Dictionary (Behavior κ)) (p : Primitive) :
    d.definePrimitives.find? p.entry.name = some p.word := by
  cases p <;>
    simp [Dictionary.definePrimitives, Primitive.all, Dictionary.definePrimitive, find?_define,
      Primitive.entry, Primitive.word, Word.renamed]

theorem find?_definePrimitives_symbol (d : Dictionary (Behavior κ)) (p : Primitive)
    {symbol : String} (h : p.entry.symbol = some symbol) :
    d.definePrimitives.find? symbol = some (p.word.renamed symbol) := by
  cases p <;> simp [Primitive.entry] at h <;> subst h <;>
    simp [Dictionary.definePrimitives, Primitive.all, Dictionary.definePrimitive, find?_define,
      Primitive.entry, Primitive.word, Word.renamed]

theorem bindsComment_definePrimitives (d : Dictionary (Behavior κ)) :
    d.definePrimitives.bindsComment = true :=
  bindsComment_iff.mpr ⟨_, find?_definePrimitives d .comment, rfl⟩

section Resolve

variable {t : Token} {w : Word (Behavior κ)}

theorem resolve_of_find? (h : d.find? t.text = some w) : d.resolve t = some w := by
  simp [resolve, h]

def stepOf? (d : Dictionary (Behavior κ)) (t : Token) : Option (Step κ) :=
  (d.resolve t).map fun w => (w.behavior, w.name)

theorem stepOf?_of_resolve (h : d.resolve t = some w) :
    d.stepOf? t = some (w.behavior, w.name) := by
  rw [stepOf?, h]
  rfl

theorem resolve_cases (h : d.resolve t = some w) :
    d.find? t.text = some w ∨
      d.find? t.text = none ∧ ∃ v, Value.ofText? t.text = some v ∧ w = t.literalWord v := by
  rw [resolve] at h
  cases hf : d.find? t.text with
  | some u =>
    rw [hf] at h
    exact .inl h
  | none =>
    rw [hf] at h
    obtain ⟨v, hv, rfl⟩ := Option.map_eq_some_iff.mp h
    exact .inr ⟨rfl, v, hv, rfl⟩

theorem name_eq_of_resolve (h : d.resolve t = some w) : w.name = t.text := by
  rcases resolve_cases h with hf | ⟨-, v, -, rfl⟩
  · exact name_eq_of_find? hf
  · rfl

theorem Standard.immediate_iff (hd : d.Standard) (h : d.resolve t = some w) :
    w.immediate = true ↔ t.text = commentName ∧ d.bindsComment = true := by
  rcases resolve_cases h with hf | ⟨hf, v, -, rfl⟩
  · rw [hd _ _ hf, bindsComment_iff]
    refine and_congr_right fun hname => ?_
    rw [← hname, hf]
    simp
  · refine iff_of_false (by simp [Token.literalWord]) ?_
    rintro ⟨hname, hc⟩
    obtain ⟨u, hu, -⟩ := bindsComment_iff.mp hc
    rw [hname, hu] at hf
    cases hf

theorem Standard.behavior_of_immediate (hd : d.Standard) (h : d.resolve t = some w)
    (hw : w.immediate = true) : w.behavior = .primitive .comment := by
  rcases resolve_cases h with hf | ⟨-, v, -, rfl⟩
  · exact ((hd _ _ hf).mp hw).2
  · cases hw

theorem exists_resolve_of_bindsComment (hc : d.bindsComment = true) (ht : t.text = commentName) :
    ∃ w, d.resolve t = some w := by
  obtain ⟨w, hw, -⟩ := bindsComment_iff.mp hc
  exact ⟨w, resolve_of_find? (ht ▸ hw)⟩

end Resolve

end Dictionary

end Forth
