import Forth.Proofs.Output
import Forth.Proofs.Primitive.Frame
import Forth.Proofs.Session.Commuting

/-! # Outputs that take a limited number of bytes

An action is compared with itself under an output that takes only so many bytes.
It does the same while they are enough. The write that goes beyond them is cut
there, and the action fails with it.
-/

namespace ByteArray

theorem extract_of_size_le {b : ByteArray} {n : Nat} (h : b.size ≤ n) : b.extract 0 n = b := by
  apply ByteArray.ext
  rw [data_extract]
  exact Array.extract_eq_self_of_le h

theorem extract_append_of_le {a b : ByteArray} {n : Nat} (h : n ≤ a.size) :
    (a ++ b).extract 0 n = a.extract 0 n := by
  have hnone : b.extract (0 - a.size) (n - a.size) = .empty := by
    rw [Nat.zero_sub, Nat.sub_eq_zero_of_le h, extract_same]
  rw [extract_append, hnone, append_empty]

theorem extract_append_of_ge {a b : ByteArray} {n : Nat} (h : a.size ≤ n) :
    (a ++ b).extract 0 n = a ++ b.extract 0 (n - a.size) := by
  rw [extract_append, extract_of_size_le h, Nat.zero_sub]

end ByteArray

namespace Forth

namespace Output

/-- The output takes `total` bytes in all, those counted that are written already. -/
def upTo (total : Nat) (o : Output) : Output :=
  { o with room := some (total - o.written.size) }

section Print

variable {total : Nat} {o : Output} {text : String}

theorem print_of_unlimited (h : o.room = none) (text : String) :
    print text o = .ok () (o.append text) := by
  simp only [print, h, append]

theorem print_upTo_of_le (h : (o.append text).written.size ≤ total) :
    print text (o.upTo total) = .ok () ((o.append text).upTo total) := by
  simp only [append, ByteArray.size_append] at h
  have hfits : text.toUTF8.size ≤ total - o.written.size := by omega
  have hroom : total - o.written.size - text.toUTF8.size =
      total - (o.written.size + text.toUTF8.size) := by omega
  simp only [print, upTo, append, hfits, if_true, ByteArray.extract_of_size_le hfits, hroom,
    ByteArray.size_append]

theorem print_upTo_of_lt (ho : o.written.size ≤ total) (h : total < (o.append text).written.size) :
    ∃ p, print text (o.upTo total) = .error closed p ∧
      p.written = (o.append text).written.extract 0 total := by
  simp only [append, ByteArray.size_append] at h
  have hcut : ¬text.toUTF8.size ≤ total - o.written.size := by omega
  refine ⟨_, by simp only [print, upTo, hcut, if_false]; rfl, ?_⟩
  exact (ByteArray.extract_append_of_ge ho).symm

theorem state_flush (o : Output) : (flush o).state = { o with flushes := o.flushes + 1 } := by
  rw [flush]
  split <;> rfl

theorem flush_upTo (total : Nat) (o : Output) :
    flush (o.upTo total) = (flush o).mapState (upTo total) := by
  simp only [flush, upTo]
  split
  · exact if_pos ‹_›
  · exact if_neg ‹_›

end Print

end Output

namespace Session

variable {κ σ α β : Type}

def upTo (total : Nat) (s : Session κ σ) : Session κ σ := { s with output := s.output.upTo total }

def withOutput (o : Output) (s : Session κ σ) : Session κ σ := { s with output := o }

def written (s : Session κ σ) : ByteArray := s.output.written

/-- The output takes everything, and so far there are no more than `total` bytes. -/
structure Fits (total : Nat) (s : Session κ σ) : Prop where
  unlimited : s.output.room = none
  size_le : s.written.size ≤ total

/-- What an action comes to where the output takes everything, and where it takes `total` bytes. -/
inductive Limited (total : Nat) :
    EStateM.Result Failure (Session κ σ) α → EStateM.Result Failure (Session κ σ) α → Prop
  | fits {r : EStateM.Result Failure (Session κ σ) α} :
      r.state.Fits total → Limited total r (r.mapState (upTo total))
  | cut {r : EStateM.Result Failure (Session κ σ) α} {u : Session κ σ} :
      r.state.output.room = none → total < r.state.written.size →
      u.written = r.state.written.extract 0 total → Limited total r (.error Output.closed u)

section Limited

variable {total : Nat} {s : Session κ σ}

theorem flush_upTo (s : Session κ σ) (total : Nat) :
    flush (s.upTo total) = (flush s).mapState (upTo total) := by
  simp only [flush, onOutput, upTo, Output.flush_upTo]
  cases Output.flush s.output <;> rfl

theorem fits_flush (hs : s.Fits total) : (flush s).state.Fits total := by
  rw [flush, state_onOutput, Output.state_flush]
  exact ⟨hs.unlimited, hs.size_le⟩

theorem limited_print (hs : s.Fits total) (text : String) :
    Limited total (print text s) (print text (s.upTo total)) := by
  have hprint : print text s = .ok () { s with output := s.output.append text } := by
    rw [print, onOutput, Output.print_of_unlimited hs.unlimited]
  rw [hprint]
  by_cases hsize : (s.output.append text).written.size ≤ total
  · have hfits := Output.print_upTo_of_le hsize
    rw [print, onOutput, upTo, hfits]
    exact .fits ⟨hs.unlimited, hsize⟩
  · obtain ⟨p, hcut, hp⟩ := Output.print_upTo_of_lt hs.size_le (Nat.lt_of_not_le hsize)
    rw [print, onOutput, upTo, hcut]
    exact .cut hs.unlimited (Nat.lt_of_not_le hsize) hp

theorem output_of_withOutput {g : Session κ σ → Session κ σ}
    (hg : ∀ s o, g (s.withOutput o) = (g s).withOutput o) (s : Session κ σ) :
    (g s).output = s.output := by
  have h : g s = (g s).withOutput s.output := hg s s.output
  rw [h]
  rfl

theorem upTo_of_withOutput {g : Session κ σ → Session κ σ}
    (hg : ∀ s o, g (s.withOutput o) = (g s).withOutput o) (s : Session κ σ) :
    g (s.upTo total) = (g s).upTo total := by
  have h : (g s).upTo total = (g s).withOutput (s.output.upTo total) := by
    rw [upTo, output_of_withOutput hg]
    rfl
  rw [h]
  exact hg s (s.output.upTo total)

theorem commutes_onSource (o : Output) (m : SourceM α) :
    Commutes (withOutput o) (onSource m : SessionM κ σ α) :=
  .onSource (f := withOutput o) (fun _ _ => rfl) (fun _ => rfl) m

/-- What commutes with every change of the output writes nothing. -/
theorem output_of_commutes {m : SessionM κ σ α} (hm : ∀ o, Commutes (withOutput o) m)
    (s : Session κ σ) : (m s).state.output = s.output := by
  refine output_of_withOutput (g := fun s => (m s).state) (fun s o => ?_) s
  rw [hm o s]
  exact EStateM.Result.state_mapState _ (m s)

theorem upTo_of_commutes {m : SessionM κ σ α} (hm : ∀ o, Commutes (withOutput o) m)
    (s : Session κ σ) : m (s.upTo total) = (m s).mapState (upTo total) := by
  refine (hm (s.output.upTo total) s).trans (EStateM.Result.mapState_congr ?_)
  rw [withOutput, upTo, output_of_commutes hm]

theorem Fits.of_output_eq {t : Session κ σ} (hs : s.Fits total) (h : t.output = s.output) :
    t.Fits total where
  unlimited := h ▸ hs.unlimited
  size_le := by
    rw [written, h]
    exact hs.size_le

theorem nextToken_upTo (s : Session κ σ) (total : Nat) :
    nextToken (s.upTo total) = (nextToken s).mapState (upTo total) :=
  upTo_of_commutes (fun o => commutes_onSource o Source.nextToken) s

theorem fits_nextToken (hs : s.Fits total) : (nextToken s).state.Fits total :=
  hs.of_output_eq (output_of_commutes (fun o => commutes_onSource o Source.nextToken) s)

theorem limited_of_commutes {m : SessionM κ σ α} (hm : ∀ o, Commutes (withOutput o) m)
    (hs : s.Fits total) : Limited total (m s) (m (s.upTo total)) := by
  rw [upTo_of_commutes hm]
  exact .fits (hs.of_output_eq (output_of_commutes hm s))

theorem Limited.modify {m : SessionM κ σ Unit} {t : Session κ σ} {g : Session κ σ → Session κ σ}
    (hg : ∀ s o, g (s.withOutput o) = (g s).withOutput o) (h : Limited total (m s) (m t)) :
    Limited total ((do m; modify g : SessionM κ σ Unit) s)
      ((do m; modify g : SessionM κ σ Unit) t) := by
  rw [bind_apply, bind_apply]
  generalize m s = r, m t = q at h
  cases h with
  | fits h =>
    cases r with
    | error failure u => exact .fits (r := .error failure u) h
    | ok _ u =>
      have houtput := output_of_withOutput hg u
      change Limited total (.ok () (g u)) (.ok () (g (u.upTo total)))
      rw [upTo_of_withOutput hg]
      exact .fits (r := .ok () (g u)) (h.of_output_eq houtput)
  | cut hroom hlt hu =>
    cases r with
    | error failure v => exact .cut (r := .error failure v) hroom hlt hu
    | ok _ v =>
      have houtput := output_of_withOutput hg v
      have hwritten : (g v).written = v.written := congrArg Output.written houtput
      exact .cut (r := .ok () (g v)) (houtput ▸ hroom) (hwritten ▸ hlt) (hwritten ▸ hu)

theorem limited_perform (e : Primitive.Effect) (hs : s.Fits total) :
    Limited total (e.perform s) (e.perform (s.upTo total)) := by
  obtain ⟨held, text, left, exits⟩ := e
  cases text with
  | none => exact limited_of_commutes (fun _ _ => rfl) hs
  | some text =>
    have hprint := limited_print (s := { s with stack := held }) ⟨hs.unlimited, hs.size_le⟩ text
    exact hprint.modify fun _ _ => rfl

theorem limited_printOrFail (hs : s.Fits total) (text : Except Failure String) :
    Limited total (printOrFail text s) (printOrFail text (s.upTo total)) := by
  cases text with
  | ok text => exact limited_print hs text
  | error failure => exact limited_of_commutes (fun _ _ => rfl) hs

theorem limited_run {p : Primitive} (hp : p ≠ .colon) (define : SessionM κ σ Unit) (name : String)
    (hs : s.Fits total) : Limited total (p.run define name s) (p.run define name (s.upTo total)) := by
  by_cases hc : p = .comment
  · subst hc
    exact limited_of_commutes (fun o => (commutes_onSource o _).bind fun _ => .pure _ ()) hs
  · by_cases hd : p = .dotDictionary
    · subst hd
      exact limited_printOrFail hs s.dictionary.listing
    · rw [Primitive.run_eq_perform ⟨hd, hc, hp⟩, Primitive.run_eq_perform ⟨hd, hc, hp⟩]
      exact limited_perform _ hs

end Limited

/-- The second session has an output to which the first one's belongs, if that takes everything. -/
def Grows (s t : Session κ σ) : Prop :=
  s.output.room = none → t.output.room = none ∧ ∃ bytes, t.written = s.written ++ bytes

namespace Grows

variable {s t u : Session κ σ}

theorem of_output_eq (h : t.output = s.output) : s.Grows t := by
  intro hs
  refine ⟨h ▸ hs, .empty, ?_⟩
  rw [written, written, h, ByteArray.append_empty]

theorem trans (h : s.Grows t) (k : t.Grows u) : s.Grows u := by
  intro hs
  obtain ⟨ht, bytes, hbytes⟩ := h hs
  obtain ⟨hu, more, hmore⟩ := k ht
  exact ⟨hu, bytes ++ more, by rw [hmore, hbytes, ByteArray.append_assoc]⟩

theorem print (text : String) (s : Session κ σ) : s.Grows (print text s).state := by
  intro hs
  rw [Session.print, onOutput, Output.print_of_unlimited hs]
  exact ⟨hs, text.toUTF8, rfl⟩

theorem printOrFail (text : Except Failure String) (s : Session κ σ) :
    s.Grows (printOrFail text s).state := by
  cases text with
  | ok text => exact print text s
  | error failure => exact .of_output_eq rfl

theorem perform (e : Primitive.Effect) (s : Session κ σ) : s.Grows (e.perform s).state := by
  obtain ⟨held, text, left, exits⟩ := e
  cases text with
  | none => exact .of_output_eq rfl
  | some text =>
    have hheld : s.Grows { s with stack := held } := .of_output_eq rfl
    refine (hheld.trans (.print text _)).trans (.of_output_eq ?_)
    rw [Primitive.Effect.perform, modify_bind_apply, bind_apply, Primitive.Effect.write]
    cases Session.print text { s with stack := held } <;> rfl

theorem run {p : Primitive} (hp : p ≠ .colon) (define : SessionM κ σ Unit) (name : String)
    (s : Session κ σ) : s.Grows (p.run define name s).state := by
  by_cases hc : p = .comment
  · subst hc
    refine .of_output_eq (output_of_commutes (fun o => ?_) s)
    exact (commutes_onSource o _).bind fun _ => .pure _ ()
  · by_cases hd : p = .dotDictionary
    · subst hd
      exact .printOrFail s.dictionary.listing s
    · rw [Primitive.run_eq_perform ⟨hd, hc, hp⟩]
      exact .perform _ s

end Grows

end Session

end Forth
