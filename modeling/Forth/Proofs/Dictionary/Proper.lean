import Forth.Proofs.Behavior.BuiltFrom
import Forth.Proofs.Dictionary.Binding

/-! # Which words are immediate

A word that is copied keeps its behavior and stays immediate, so the comment can
have many names. Still it is the only behavior of an immediate word, and since
an immediate word leaves no step behind, no other word holds it.
-/

namespace Forth

variable {κ : Type}

/-- No step is the comment, at any depth. -/
def Behavior.CommentFree (b : Behavior κ) : Prop := b.BuiltFrom (· ≠ .comment)

theorem Behavior.CommentFree.ne_comment {b : Behavior κ} (h : b.CommentFree) :
    b ≠ .primitive .comment := by
  rintro rfl
  cases h with
  | primitive hne => exact hne rfl

inductive Word.Proper (w : Word (Behavior κ)) : Prop
  | comment : w.immediate = true → w.kind = .native → w.behavior = .primitive .comment → Proper w
  | normal : w.immediate = false → w.behavior.CommentFree → Proper w

theorem Word.Proper.renamed {w : Word (Behavior κ)} (h : w.Proper) (name : String) :
    (w.renamed name).Proper := by
  cases h with
  | comment hi hk hb => exact .comment hi hk hb
  | normal hi hb => exact .normal hi hb

theorem Word.proper_literalWord (t : Token) (v : Value) :
    (t.literalWord v : Word (Behavior κ)).Proper :=
  .normal rfl (.literal v)

theorem Primitive.proper_word (p : Primitive) : (p.word : Word (Behavior κ)).Proper := by
  by_cases hp : p = .comment
  · subst hp
    exact .comment rfl rfl rfl
  · refine .normal ?_ (.primitive hp)
    cases p <;> first | rfl | exact absurd rfl hp

namespace Dictionary

variable {d : Dictionary (Behavior κ)} {w : Word (Behavior κ)} {t : Token}

/-- Every immediate word is the comment, under whatever name. -/
def OnlyComments (d : Dictionary (Behavior κ)) : Prop :=
  ∀ name w, d.find? name = some w → w.immediate = true → w.behavior = .primitive .comment

def Proper (d : Dictionary (Behavior κ)) : Prop :=
  ∀ name w, d.find? name = some w → w.Proper

theorem Standard.onlyComments (hd : d.Standard) : d.OnlyComments :=
  fun name w hw hi => ((hd name w hw).mp hi).2

theorem Proper.onlyComments (hd : d.Proper) : d.OnlyComments := by
  intro name w hw hi
  cases hd name w hw with
  | comment _ _ hb => exact hb
  | normal hn => simp [hi] at hn

theorem OnlyComments.define (hd : d.OnlyComments) (hw : w.immediate = false) :
    (d.define w).OnlyComments := by
  intro name v hv hi
  rw [find?_define] at hv
  split at hv
  · cases hv
    simp [hw] at hi
  · exact hd name v hv hi

theorem OnlyComments.behavior_of_immediate (hd : d.OnlyComments) (h : d.resolve t = some w)
    (hi : w.immediate = true) : w.behavior = .primitive .comment := by
  rcases resolve_cases h with hf | ⟨-, v, -, rfl⟩
  · exact hd _ _ hf hi
  · cases hi

theorem proper_empty : (empty : Dictionary (Behavior κ)).Proper := by
  intro name w h
  cases h

theorem Proper.define (hd : d.Proper) (hw : w.Proper) : (d.define w).Proper := by
  intro name v hv
  rw [find?_define] at hv
  split at hv
  · cases hv
    exact hw
  · exact hd name v hv

theorem Proper.definePrimitives (hd : d.Proper) : d.definePrimitives.Proper := by
  rw [Dictionary.definePrimitives]
  generalize Primitive.all = ps
  induction ps generalizing d with
  | nil => exact hd
  | cons p ps ih =>
    apply ih
    have hword := hd.define p.proper_word
    rw [Dictionary.definePrimitive]
    split
    · exact hword.define (p.proper_word.renamed _)
    · exact hword

theorem exists_of_addAlias {e : Dictionary (Behavior κ)} {name existing : String}
    (h : d.addAlias name existing = .ok e) :
    ∃ w, d.find? existing = some w ∧ e = d.define (w.renamed name) := by
  rw [addAlias] at h
  split at h
  · cases h
    exact ⟨_, ‹_›, rfl⟩
  · cases h

theorem Proper.addAlias {e : Dictionary (Behavior κ)} {name existing : String} (hd : d.Proper)
    (h : d.addAlias name existing = .ok e) : e.Proper := by
  obtain ⟨w, hw, rfl⟩ := exists_of_addAlias h
  exact hd.define ((hd existing w hw).renamed name)

theorem Proper.resolve (hd : d.Proper) (h : d.resolve t = some w) : w.Proper := by
  rcases resolve_cases h with hf | ⟨-, v, -, rfl⟩
  · exact hd _ _ hf
  · exact Word.proper_literalWord t v

theorem Proper.immediate_of_bindsComment (hd : d.Proper) (hc : d.bindsComment = true)
    (ht : t.text = commentName) :
    ∃ w, d.resolve t = some w ∧ w.immediate = true ∧ w.behavior = .primitive .comment := by
  obtain ⟨w, hw, hb⟩ := bindsComment_iff.mp hc
  refine ⟨w, resolve_of_find? (ht ▸ hw), ?_, hb⟩
  cases hd _ _ hw with
  | comment hi => exact hi
  | normal _ hfree => exact absurd hb hfree.ne_comment

/-- The step is what a token refers to that can be compiled. -/
def Holds (d : Dictionary (Behavior κ)) (step : Step κ) : Prop :=
  ∃ t w, d.resolve t = some w ∧ w.immediate = false ∧ step = (w.behavior, w.name)

theorem Holds.behavior_eq {step : Step κ} (h : d.Holds step) (hw : d.find? step.2 = some w) :
    step.1 = w.behavior := by
  obtain ⟨t, v, hv, -, rfl⟩ := h
  have hname : v.name = t.text := name_eq_of_resolve hv
  simp only [hname] at hw
  rw [resolve_of_find? hw] at hv
  cases hv
  rfl

theorem Proper.commentFree (hd : d.Proper) {step : Step κ} (h : d.Holds step) :
    step.1.CommentFree := by
  obtain ⟨t, w, hw, hn, rfl⟩ := h
  cases hd.resolve hw with
  | comment hi => simp [hn] at hi
  | normal _ hfree => exact hfree

end Dictionary

end Forth
