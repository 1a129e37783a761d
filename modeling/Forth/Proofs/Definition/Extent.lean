import Forth.Proofs.Session.Reachable

/-! # Where a definition ends

What `:` takes from the source depends on the text and on the meaning of `\`,
and on nothing else. In particular it does not matter whether the body can be
compiled.
-/

namespace Forth

namespace Item

/-- What follows a body: it goes up to the first `;` that is a token outside of comments, or to
the end. A comment begins with the token `\` if that is said to be one. -/
def afterBody (comments : Bool) (items : List Item) : List Item :=
  if _h : word items = [] then []
  else if wordText items = endOfDefinition then afterWord items
  else if comments = true ∧ wordText items = Dictionary.commentName then
    afterBody comments (afterComment (afterWord items))
  else afterBody comments (afterWord items)
termination_by items.length
decreasing_by
  · exact (length_afterComment_le _).trans_lt (length_afterWord_lt _h)
  · exact length_afterWord_lt _h

def afterDefinition (comments : Bool) (items : List Item) : List Item :=
  afterBody comments (afterWord items)

section AfterBody

variable {comments : Bool} {items : List Item}

theorem afterBody_of_nil (h : word items = []) : afterBody comments items = [] := by
  rw [afterBody, dif_pos h]

theorem afterBody_of_end (h : word items ≠ []) (ht : wordText items = endOfDefinition) :
    afterBody comments items = afterWord items := by
  rw [afterBody, dif_neg h, if_pos ht]

theorem afterBody_of_comment (h : word items ≠ []) (ht : wordText items ≠ endOfDefinition)
    (hc : comments = true ∧ wordText items = Dictionary.commentName) :
    afterBody comments items = afterBody comments (afterComment (afterWord items)) := by
  rw [afterBody, dif_neg h, if_neg ht, if_pos hc]

theorem afterBody_of_token (h : word items ≠ []) (ht : wordText items ≠ endOfDefinition)
    (hc : ¬(comments = true ∧ wordText items = Dictionary.commentName)) :
    afterBody comments items = afterBody comments (afterWord items) := by
  rw [afterBody, dif_neg h, if_neg ht, if_neg hc]

end AfterBody

end Item

namespace Source

theorem faultless_ofText (path text : String) : (ofText path text).Faultless := by
  intro i hi
  obtain ⟨c, -, rfl⟩ := List.mem_map.mp hi
  rfl

theorem word_of_nextToken_none {s t : Source} (h : nextToken s = .ok none t) :
    Item.word s.unread = [] := by
  rw [Item.word, dropWhile_isGap_of_nextToken_none h]
  rfl

theorem Drafts.extent {comments : Bool} {s u : Source} {d : Draft} (h : Drafts comments s d u)
    (hs : s.Faultless) : Moved s u ∧ u.unread = Item.afterBody comments s.unread := by
  induction h with
  | failed hn => exact absurd (met_of_nextToken hn) hs.not_met
  | cutOff hn =>
    refine ⟨moved_of_nextToken hn, ?_⟩
    rw [unread_of_nextToken_none hn, Item.afterBody_of_nil (word_of_nextToken_none hn)]
  | closed hn ht =>
    obtain ⟨rfl, rfl⟩ := eq_of_nextToken hn
    refine ⟨moved_of_nextToken hn, ?_⟩
    rw [Item.afterBody_of_end (word_ne_nil_of_nextToken hn) ht]
    rfl
  | commentFailed hn _ _ hline =>
    exact absurd (met_of_restOfLine hline) (hs.of_moved (moved_of_nextToken hn)).not_met
  | comment hn ht hc hline _ ih =>
    have hm := (moved_of_nextToken hn).trans (moved_of_restOfLine hline)
    obtain ⟨hlast, hu⟩ := ih (hs.of_moved hm)
    obtain ⟨rfl, rfl⟩ := eq_of_nextToken hn
    refine ⟨hm.trans hlast, ?_⟩
    rw [hu, unread_of_restOfLine hline,
      Item.afterBody_of_comment (word_ne_nil_of_nextToken hn) ht hc]
    rfl
  | token hn ht hc _ ih =>
    have hm := moved_of_nextToken hn
    obtain ⟨hlast, hu⟩ := ih (hs.of_moved hm)
    obtain ⟨rfl, rfl⟩ := eq_of_nextToken hn
    refine ⟨hm.trans hlast, ?_⟩
    rw [hu, Item.afterBody_of_token (word_ne_nil_of_nextToken hn) ht hc]
    rfl

theorem extent_draft (comments : Bool) {s : Source} (hs : s.Faultless) :
    Moved s (s.draft comments).2 ∧
      (s.draft comments).2.unread = Item.afterDefinition comments s.unread := by
  obtain ⟨failed, t, hn, -⟩ | ⟨t, hn, hd⟩ | ⟨name, t, d, u, hn, hbody, hd⟩ := draft_cases comments s
  · exact absurd (met_of_nextToken hn) hs.not_met
  · have hafter : Item.afterWord s.unread = [] := by
      rw [Item.afterWord, dropWhile_isGap_of_nextToken_none hn]
      rfl
    rw [hd, Item.afterDefinition, hafter, Item.afterBody_of_nil rfl]
    exact ⟨moved_of_nextToken hn, unread_of_nextToken_none hn⟩
  · have hm := moved_of_nextToken hn
    obtain ⟨hlast, hu⟩ := hbody.extent (hs.of_moved hm)
    obtain ⟨rfl, rfl⟩ := eq_of_nextToken hn
    rw [hd]
    exact ⟨hm.trans hlast, hu⟩

end Source

theorem source_define_of_faultless {κ σ : Type} (host : Host κ σ) {s : Session κ σ}
    (hd : s.dictionary.Standard) (hf : s.source.Faultless) :
    ∃ taken rest, s.source.unread = taken ++ rest ∧
      rest = Item.afterDefinition s.dictionary.bindsComment s.source.unread ∧
      (define host s).state.source = s.source.moveBy taken rest := by
  obtain ⟨⟨taken, htaken, -, hmove⟩, hu⟩ := Source.extent_draft s.dictionary.bindsComment hf
  exact ⟨taken, _, htaken, hu, (source_define host hd).trans hmove⟩

/-- A definition takes its name and its body. So two sessions that have the same unread text and
give `\` the same meaning agree on where it ends. -/
theorem define_extent {σ τ : Type} {s : Session Empty σ} (hs : Reachable s)
    (hf : s.source.Faultless) :
    (∃ taken rest, s.source.unread = taken ++ rest ∧
      rest = Item.afterDefinition s.dictionary.bindsComment s.source.unread ∧
      (define .none s).state.source = s.source.moveBy taken rest) ∧
    ∀ t : Session Empty τ, Reachable t → t.source.unread = s.source.unread →
      t.source.location = s.source.location →
      t.dictionary.bindsComment = s.dictionary.bindsComment →
      (define .none t).state.source.unread = (define .none s).state.source.unread ∧
        (define .none t).state.source.location = (define .none s).state.source.location := by
  have hextent := source_define_of_faultless .none hs.standard hf
  refine ⟨hextent, ?_⟩
  intro t ht hunread hlocation hcomment
  obtain ⟨taken, rest, hsplit, hrest, hsource⟩ := hextent
  have hft : t.source.Faultless := fun i hi => hf i (hunread ▸ hi)
  obtain ⟨taken', rest', hsplit', hrest', hsource'⟩ :=
    source_define_of_faultless .none ht.standard hft
  have hrests : rest' = rest := by
    rw [hrest', hrest, hcomment, hunread]
  -- the same text is left behind, so the same text was taken
  have htaken : taken' = taken := by
    rw [hunread, hsplit, hrests] at hsplit'
    exact (List.append_cancel_right hsplit').symm
  rw [hsource, hsource', hrests, htaken]
  constructor
  · rfl
  · change t.source.location.advanceBy _ = s.source.location.advanceBy _
    rw [hlocation]

/-- Here the first `;` is in a comment, behind a word that is not known. -/
theorem define_extent_abandoned :
    let s : Session Empty Unit :=
      { dictionary := Dictionary.empty.definePrimitives, source := .ofText "" " f who \\ ;\n ; 1",
        hostState := () }
    Reachable s ∧ s.source.Faultless ∧
      (define .none s).state.source.unread = " 1".toList.map .char := by
  intro s
  have hs : Reachable s := .start _ ()
  have hf : s.source.Faultless := Source.faultless_ofText "" _
  have hcomment : s.dictionary.bindsComment = true := Dictionary.bindsComment_definePrimitives _
  have hname : Item.afterWord s.source.unread = " who \\ ;\n ; 1".toList.map .char := by
    decide
  have hrest : Item.afterDefinition true s.source.unread = " 1".toList.map .char := by
    rw [Item.afterDefinition, hname, Item.afterBody_of_token (by decide) (by decide) (by decide),
      Item.afterBody_of_comment (by decide) (by decide) (by decide),
      Item.afterBody_of_end (by decide) (by decide)]
    decide
  obtain ⟨⟨taken, rest, -, rfl, hsource⟩, -⟩ := define_extent (τ := Unit) hs hf
  refine ⟨hs, hf, ?_⟩
  rw [hsource, hcomment]
  exact hrest

end Forth
