import Forth.Proofs.Dictionary.Proper
import Forth.Proofs.Dictionary.Regular

/-! # The history of a dictionary

What a dictionary holds can be read off the log of the edits that made it,
without running them: a name is bound to the entry of the last edit of that name
that succeeded. Such an edit defined a word, or copied the entry that another
name had at that time, so every entry goes back to one definition, and shares its
behavior with the entries that go back to the same one.
-/

namespace Forth

variable {β : Type}

inductive Edit (β : Type) where
  | define (w : Word β)
  /-- Makes `name` another name for the word that `existing` is bound to. -/
  | copy (name existing : String)

/-- The name that is bound if the edit succeeds. -/
def Edit.target : Edit β → String
  | define w => w.name
  | copy name _ => name

def Edit.behavior? : Edit β → Option β
  | define w => some w.behavior
  | copy _ _ => none

abbrev Log (β : Type) := List (Edit β)

namespace Dictionary

variable {d : Dictionary β} {w : Word β} {name existing : String}

def names (d : Dictionary β) : List String := d.words.map Word.name

theorem nodup_names (d : Dictionary β) : d.names.Nodup :=
  List.pairwise_map.mpr (d.sorted.imp fun hlt => String.ne_of_lt hlt)

theorem mem_names_iff : name ∈ d.names ↔ d.find? name ≠ none := by
  simp [names, find?]

def edit (d : Dictionary β) : Edit β → Except Failure (Dictionary β)
  | .define w => .ok (d.define w)
  | .copy name existing => d.addAlias name existing

/-- An edit that fails changes nothing. -/
def edited (d : Dictionary β) (e : Edit β) : Dictionary β :=
  (d.edit e).toOption.getD d

def ofLog (log : Log β) : Dictionary β :=
  log.foldl edited empty

theorem addAlias_of_find? (h : d.find? existing = some w) :
    d.addAlias name existing = .ok (d.define (w.renamed name)) := by
  rw [addAlias, h]

theorem addAlias_of_find?_eq_none (h : d.find? existing = none) :
    d.addAlias name existing = .error { cause := .noSuchWord existing } := by
  rw [addAlias, h]

theorem addAlias_eq_error_iff {failure : Failure} :
    d.addAlias name existing = .error failure ↔
      d.find? existing = none ∧ failure = { cause := .noSuchWord existing } := by
  cases h : d.find? existing with
  | some w => simp [addAlias_of_find? h]
  | none => simp [addAlias_of_find?_eq_none h, eq_comm]

theorem edited_copy_of_find? (h : d.find? existing = some w) :
    d.edited (.copy name existing) = d.define (w.renamed name) := by
  simp [edited, edit, addAlias_of_find? h, Except.toOption]

theorem edited_copy_of_find?_eq_none (h : d.find? existing = none) :
    d.edited (.copy name existing) = d := by
  simp [edited, edit, addAlias_of_find?_eq_none h, Except.toOption]

theorem ofLog_take_succ {log : Log β} {k : Nat} {e : Edit β} (h : log[k]? = some e) :
    ofLog (log.take (k + 1)) = (ofLog (log.take k)).edited e := by
  rw [ofLog, ofLog, List.take_add_one, h, List.foldl_append]
  rfl

theorem ofLog_take_succ_of_none {log : Log β} {k : Nat} (h : log[k]? = none) :
    ofLog (log.take (k + 1)) = ofLog (log.take k) := by
  rw [List.take_add_one, h, Option.toList_none, List.append_nil]

end Dictionary

namespace Log

/-- A definition always succeeds, a copy if an earlier edit bound the name to copy from. -/
inductive Succeeds (log : Log β) : Nat → Prop
  | define {i : Nat} {w : Word β} : log[i]? = some (.define w) → Succeeds log i
  | copy {i j : Nat} {name existing : String} : log[i]? = some (.copy name existing) → j < i →
      log[j]?.map Edit.target = some existing → Succeeds log j → Succeeds log i

/-- The edit at position `i` succeeds in binding the name. -/
structure Binds (log : Log β) (name : String) (i : Nat) : Prop where
  target : log[i]?.map Edit.target = some name
  succeeds : log.Succeeds i

/-- Of the edits before position `k`, the one at `i` is the last that binds the name. -/
structure BindsLast (log : Log β) (k : Nat) (name : String) (i : Nat) : Prop where
  before : i < k
  binds : log.Binds name i
  latest : ∀ j, i < j → j < k → ¬log.Binds name j

/-- The word that the edit at a position binds its name to. -/
inductive Entry (log : Log β) : Nat → Word β → Prop
  | define {i : Nat} {w : Word β} : log[i]? = some (.define w) → Entry log i w
  | copy {i j : Nat} {name existing : String} {w : Word β} :
      log[i]? = some (.copy name existing) → log.BindsLast i existing j → Entry log j w →
      Entry log i (w.renamed name)

/-- The entry of the edit at position `i` goes back, through copies, to the definition at `k`. -/
inductive Origin (log : Log β) : Nat → Nat → Prop
  | define {i : Nat} {w : Word β} : log[i]? = some (.define w) → Origin log i i
  | copy {i j k : Nat} {name existing : String} : log[i]? = some (.copy name existing) →
      log.BindsLast i existing j → Origin log j k → Origin log i k

/-- Every definition is of a behavior of its own. -/
def Fresh (log : Log β) : Prop := (log.filterMap Edit.behavior?).Nodup

variable {log : Log β} {i j k : Nat} {name existing : String} {v w : Word β}

section Binding

theorem binds_define_iff (h : log[i]? = some (.define w)) : log.Binds name i ↔ name = w.name := by
  constructor
  · intro hb
    have htarget := hb.target
    rw [h] at htarget
    exact (Option.some.inj htarget).symm
  · rintro rfl
    exact ⟨by rw [h]; rfl, .define h⟩

theorem binds_copy_iff {target : String} (h : log[i]? = some (.copy target existing)) :
    log.Binds name i ↔ name = target ∧ ∃ j < i, log.Binds existing j := by
  constructor
  · rintro ⟨htarget, hsucceeds⟩
    rw [h] at htarget
    refine ⟨(Option.some.inj htarget).symm, ?_⟩
    cases hsucceeds with
    | define hi =>
      rw [h] at hi
      cases hi
    | copy hi hj htarget hsucceeds =>
      rw [h] at hi
      cases hi
      exact ⟨_, hj, htarget, hsucceeds⟩
  · rintro ⟨rfl, j, hj, hb⟩
    exact ⟨by rw [h]; rfl, .copy h hj hb.target hb.succeeds⟩

theorem not_binds_of_none (h : log[i]? = none) : ¬log.Binds name i := by
  intro hb
  have htarget := hb.target
  rw [h] at htarget
  cases htarget

theorem Binds.lt_length (h : log.Binds name i) : i < log.length :=
  Nat.lt_of_not_le fun hi => not_binds_of_none (List.getElem?_eq_none hi) h

theorem BindsLast.unique (hi : log.BindsLast k name i) (hj : log.BindsLast k name j) : i = j := by
  rcases Nat.lt_trichotomy i j with h | h | h
  · exact absurd hj.binds (hi.latest j h hj.before)
  · exact h
  · exact absurd hi.binds (hj.latest i h hi.before)

theorem bindsLast_succ_iff :
    log.BindsLast (k + 1) name i ↔
      (i = k ∧ log.Binds name k) ∨ (¬log.Binds name k ∧ log.BindsLast k name i) := by
  constructor
  · intro h
    rcases Nat.lt_succ_iff_lt_or_eq.mp h.before with hi | rfl
    · exact .inr ⟨h.latest k hi (Nat.lt_succ_self k), hi, h.binds,
        fun j hij hj => h.latest j hij (Nat.lt_succ_of_lt hj)⟩
    · exact .inl ⟨rfl, h.binds⟩
  · rintro (⟨rfl, hb⟩ | ⟨hk, h⟩)
    · exact ⟨Nat.lt_succ_self i, hb, fun j hij hj => by omega⟩
    · refine ⟨Nat.lt_succ_of_lt h.before, h.binds, fun j hij hj => ?_⟩
      rcases Nat.lt_succ_iff_lt_or_eq.mp hj with hj | rfl
      · exact h.latest j hij hj
      · exact hk

theorem exists_bindsLast_iff : (∃ i, log.BindsLast k name i) ↔ ∃ i < k, log.Binds name i := by
  constructor
  · rintro ⟨i, h⟩
    exact ⟨i, h.before, h.binds⟩
  · rintro ⟨i, hi, hb⟩
    induction k with
    | zero => cases hi
    | succ k ih =>
      by_cases hk : log.Binds name k
      · exact ⟨k, bindsLast_succ_iff.mpr (.inl ⟨rfl, hk⟩)⟩
      · have hne : i ≠ k := fun h => hk (h ▸ hb)
        obtain ⟨j, hj⟩ := ih (by omega)
        exact ⟨j, bindsLast_succ_iff.mpr (.inr ⟨hk, hj⟩)⟩

end Binding

section Entries

theorem entry_define_iff (h : log[i]? = some (.define v)) : log.Entry i w ↔ w = v := by
  constructor
  · intro he
    cases he with
    | define hi => simpa [h] using hi.symm
    | copy hi _ _ => simp [h] at hi
  · rintro rfl
    exact .define h

theorem entry_copy_iff (h : log[i]? = some (.copy name existing)) :
    log.Entry i w ↔ ∃ j v, log.BindsLast i existing j ∧ log.Entry j v ∧ w = v.renamed name := by
  constructor
  · intro he
    cases he with
    | define hi => simp [h] at hi
    | copy hi hj hw =>
      rw [h] at hi
      cases hi
      exact ⟨_, _, hj, hw, rfl⟩
  · rintro ⟨j, v, hj, hv, rfl⟩
    exact .copy h hj hv

theorem Entry.unique (hv : log.Entry i v) (hw : log.Entry i w) : v = w := by
  induction hv generalizing w with
  | define h => exact ((entry_define_iff h).mp hw).symm
  | copy h hj _ ih =>
    obtain ⟨j, u, hj', hu, rfl⟩ := (entry_copy_iff h).mp hw
    cases hj.unique hj'
    rw [ih hu]

/-- By induction on the position: what is copied was bound before. -/
theorem Succeeds.exists_entry (h : log.Succeeds i) : ∃ w, log.Entry i w := by
  induction i using Nat.strongRecOn with
  | ind i ih =>
    cases h with
    | define hi => exact ⟨_, .define hi⟩
    | copy hi hj htarget hsucceeds =>
      obtain ⟨k, hk⟩ := exists_bindsLast_iff.mpr ⟨_, hj, htarget, hsucceeds⟩
      obtain ⟨w, hw⟩ := ih k hk.before hk.binds.succeeds
      exact ⟨_, .copy hi hk hw⟩

/-- An entry is what was defined at its origin, but for the name. -/
theorem Entry.exists_origin (h : log.Entry i w) :
    ∃ k v, log.Origin i k ∧ log[k]? = some (.define v) ∧ w = v.renamed w.name := by
  induction h with
  | define hi => exact ⟨_, _, .define hi, hi, rfl⟩
  | copy hi hj _ ih =>
    obtain ⟨k, v, hk, hv, hw⟩ := ih
    exact ⟨k, v, .copy hi hj hk, hv, by rw [hw]; rfl⟩

theorem Origin.unique (hj : log.Origin i j) (hk : log.Origin i k) : j = k := by
  induction hj with
  | define h =>
    cases hk with
    | define _ => rfl
    | copy hi _ _ => simp [h] at hi
  | copy h hl _ ih =>
    cases hk with
    | define hi => simp [h] at hi
    | copy hi hl' hk =>
      rw [h] at hi
      cases hi
      cases hl.unique hl'
      exact ih hk

theorem Fresh.eq_of_behavior_eq (hfresh : log.Fresh) (hi : log[i]? = some (.define v))
    (hj : log[j]? = some (.define w)) (h : v.behavior = w.behavior) : i = j := by
  have hne {i j : Nat} {v w : Word β} (hij : i < j) (hi : log[i]? = some (.define v))
      (hj : log[j]? = some (.define w)) : v.behavior ≠ w.behavior := by
    obtain ⟨hi', hi⟩ := List.getElem?_eq_some_iff.mp hi
    obtain ⟨hj', hj⟩ := List.getElem?_eq_some_iff.mp hj
    refine List.pairwise_iff_getElem.mp (List.pairwise_filterMap.mp hfresh) i j hi' hj' hij _ ?_ _ ?_
    · rw [hi]; rfl
    · rw [hj]; rfl
  rcases Nat.lt_trichotomy i j with hij | hij | hij
  · exact absurd h (hne hij hi hj)
  · exact hij
  · exact absurd h.symm (hne hij hj hi)

theorem Fresh.behavior_eq_iff (hfresh : log.Fresh) (hv : log.Entry i v) (hw : log.Entry j w) :
    v.behavior = w.behavior ↔ ∃ k, log.Origin i k ∧ log.Origin j k := by
  obtain ⟨k, v', hk, hv', hv⟩ := hv.exists_origin
  obtain ⟨l, w', hl, hw', hw⟩ := hw.exists_origin
  rw [hv, hw]
  constructor
  · intro h
    cases hfresh.eq_of_behavior_eq hv' hw' h
    exact ⟨k, hk, hl⟩
  · rintro ⟨m, hi, hj⟩
    cases hi.unique hk
    cases hj.unique hl
    cases hv'.symm.trans hw'
    rfl

end Entries

/-- The dictionary before an edit. -/
def before (log : Log β) (k : Nat) : Dictionary β := .ofLog (log.take k)

/-- The first `k` edits bind each name to the entry of the last one that binds it. -/
def ReadsAt (log : Log β) (k : Nat) : Prop :=
  ∀ name w, (log.before k).find? name = some w ↔ ∃ i, log.BindsLast k name i ∧ log.Entry i w

theorem before_succ {e : Edit β} (h : log[k]? = some e) :
    log.before (k + 1) = (log.before k).edited e :=
  Dictionary.ofLog_take_succ h

theorem before_length (log : Log β) : log.before log.length = .ofLog log := by
  rw [before, List.take_length]

theorem readsAt_zero (log : Log β) : log.ReadsAt 0 := by
  refine fun name w => iff_of_false (by intro h; cases h) ?_
  rintro ⟨i, hi, -⟩
  cases hi.before

section Reading

variable (h : log.ReadsAt k)
include h

theorem ReadsAt.find?_eq_none_iff :
    (log.before k).find? name = none ↔ ∀ i < k, ¬log.Binds name i := by
  rw [Option.eq_none_iff_forall_ne_some]
  constructor
  · intro hnone i hi hb
    obtain ⟨j, hj⟩ := exists_bindsLast_iff.mpr ⟨i, hi, hb⟩
    obtain ⟨w, hw⟩ := hj.binds.succeeds.exists_entry
    exact hnone w ((h name w).mpr ⟨j, hj, hw⟩)
  · intro hnot w hw
    obtain ⟨i, hi, -⟩ := (h name w).mp hw
    exact hnot i hi.before hi.binds

theorem ReadsAt.before_succ_of_not_bound (hk : log[k]? = some (.copy name existing))
    (hnot : ∀ j < k, ¬log.Binds existing j) : log.before (k + 1) = log.before k := by
  rw [before_succ hk]
  exact Dictionary.edited_copy_of_find?_eq_none (h.find?_eq_none_iff.mpr hnot)

/-- What is copied is the entry that `existing` has at the time. -/
theorem ReadsAt.exists_copied (hk : log[k]? = some (.copy name existing))
    (hb : ∃ j < k, log.Binds existing j) :
    ∃ w, (log.before k).find? existing = some w ∧ log.Entry k (w.renamed name) ∧
      log.before (k + 1) = (log.before k).define (w.renamed name) := by
  obtain ⟨i, hi⟩ := exists_bindsLast_iff.mpr hb
  obtain ⟨w, hw⟩ := hi.binds.succeeds.exists_entry
  have hfind := (h existing w).mpr ⟨i, hi, hw⟩
  refine ⟨w, hfind, .copy hk hi hw, ?_⟩
  rw [before_succ hk]
  exact Dictionary.edited_copy_of_find? hfind

theorem ReadsAt.find?_of_binds (hb : log.Binds name k) :
    ∃ w, log.Entry k w ∧ (log.before (k + 1)).find? name = some w := by
  cases hk : log[k]? with
  | none => exact absurd hb (not_binds_of_none hk)
  | some e =>
    cases e with
    | define w =>
      cases (binds_define_iff hk).mp hb
      exact ⟨w, .define hk, by rw [before_succ hk]; exact Dictionary.find?_define_self _ w⟩
    | copy target existing =>
      obtain ⟨rfl, hj⟩ := (binds_copy_iff hk).mp hb
      obtain ⟨w, -, hentry, hsucc⟩ := h.exists_copied hk hj
      exact ⟨w.renamed name, hentry, by rw [hsucc]; exact Dictionary.find?_define_self _ _⟩

theorem ReadsAt.find?_of_not_binds (hb : ¬log.Binds name k) :
    (log.before (k + 1)).find? name = (log.before k).find? name := by
  cases hk : log[k]? with
  | none => rw [before, Dictionary.ofLog_take_succ_of_none hk, before]
  | some e =>
    cases e with
    | define w =>
      rw [before_succ hk]
      exact Dictionary.find?_define_of_ne _ w fun hname => hb ((binds_define_iff hk).mpr hname)
    | copy target existing =>
      by_cases hj : ∃ j < k, log.Binds existing j
      · obtain ⟨w, -, -, hsucc⟩ := h.exists_copied hk hj
        rw [hsucc]
        exact Dictionary.find?_define_of_ne _ _ fun hname =>
          hb ((binds_copy_iff hk).mpr ⟨hname, hj⟩)
      · rw [h.before_succ_of_not_bound hk fun j hlt hj' => hj ⟨j, hlt, hj'⟩]

theorem ReadsAt.succ : log.ReadsAt (k + 1) := by
  intro name w
  by_cases hb : log.Binds name k
  · obtain ⟨v, hv, hfind⟩ := h.find?_of_binds hb
    rw [hfind]
    constructor
    · intro hw
      cases hw
      exact ⟨k, bindsLast_succ_iff.mpr (.inl ⟨rfl, hb⟩), hv⟩
    · rintro ⟨i, hi, hw⟩
      obtain ⟨rfl, -⟩ | ⟨hnot, -⟩ := bindsLast_succ_iff.mp hi
      · rw [hv.unique hw]
      · exact absurd hb hnot
  · rw [h.find?_of_not_binds hb, h name w]
    simp [bindsLast_succ_iff, hb]

end Reading

theorem readsAt (log : Log β) (k : Nat) : log.ReadsAt k := by
  induction k with
  | zero => exact readsAt_zero log
  | succ k ih => exact ih.succ

/-- A name stays bound to what it is bound to until an edit binds it again. -/
theorem find?_before_of_not_binds (hik : i ≤ k)
    (hnot : ∀ j, i ≤ j → j < k → ¬log.Binds name j) :
    (log.before k).find? name = (log.before i).find? name := by
  induction hik with
  | refl => rfl
  | @step k hik ih =>
    rw [(readsAt log k).find?_of_not_binds (hnot k hik (Nat.lt_succ_self k))]
    exact ih fun j hij hj => hnot j hij (Nat.lt_succ_of_lt hj)

theorem find?_ofLog :
    (Dictionary.ofLog log).find? name = some w ↔
      ∃ i, log.BindsLast log.length name i ∧ log.Entry i w := by
  rw [← before_length]
  exact readsAt log log.length name w

theorem find?_ofLog_eq_none_iff :
    (Dictionary.ofLog log).find? name = none ↔ ∀ i, ¬log.Binds name i := by
  rw [← before_length, (readsAt log log.length).find?_eq_none_iff]
  exact ⟨fun h i hb => h i hb.lt_length hb, fun h i _ => h i⟩

theorem mem_names_ofLog : name ∈ (Dictionary.ofLog log).names ↔ ∃ i, log.Binds name i := by
  rw [Dictionary.mem_names_iff, ne_eq, find?_ofLog_eq_none_iff, Classical.not_forall_not]

theorem Fresh.shared_iff (hfresh : log.Fresh) (m n : String) :
    (∃ v w, (Dictionary.ofLog log).find? m = some v ∧
      (Dictionary.ofLog log).find? n = some w ∧ v.behavior = w.behavior) ↔
    ∃ i j k, log.BindsLast log.length m i ∧ log.BindsLast log.length n j ∧
      log.Origin i k ∧ log.Origin j k := by
  constructor
  · rintro ⟨v, w, hv, hw, hbehavior⟩
    obtain ⟨i, hi, hv⟩ := find?_ofLog.mp hv
    obtain ⟨j, hj, hw⟩ := find?_ofLog.mp hw
    obtain ⟨k, hik, hjk⟩ := (hfresh.behavior_eq_iff hv hw).mp hbehavior
    exact ⟨i, j, k, hi, hj, hik, hjk⟩
  · rintro ⟨i, j, k, hi, hj, hik, hjk⟩
    obtain ⟨v, hv⟩ := hi.binds.succeeds.exists_entry
    obtain ⟨w, hw⟩ := hj.binds.succeeds.exists_entry
    exact ⟨v, w, find?_ofLog.mpr ⟨i, hi, hv⟩, find?_ofLog.mpr ⟨j, hj, hw⟩,
      (hfresh.behavior_eq_iff hv hw).mpr ⟨k, hik, hjk⟩⟩

/-- What a log says about the dictionary that its edits make. -/
structure Reads (log : Log β) : Prop where
  found : ∀ name w, (Dictionary.ofLog log).find? name = some w ↔
    ∃ i, log.BindsLast log.length name i ∧ log.Entry i w
  missing : ∀ name, (Dictionary.ofLog log).find? name = none ↔ ∀ i, ¬log.Binds name i
  named : ∀ name w, (Dictionary.ofLog log).find? name = some w → w.name = name
  /-- What is copied is the entry that is found at the time. -/
  copied : ∀ (i : Nat) (name existing : String), log[i]? = some (.copy name existing) →
    (∃ j < i, log.Binds existing j) → ∃ w, (log.before i).find? existing = some w ∧
      (log.before i).addAlias name existing = .ok (log.before (i + 1)) ∧
      (log.before (i + 1)).find? name = some (w.renamed name) ∧ log.Entry i (w.renamed name)
  refused : ∀ (i : Nat) (name existing : String), log[i]? = some (.copy name existing) →
    ∀ failure, (log.before i).addAlias name existing = .error failure ↔
      (∀ j < i, ¬log.Binds existing j) ∧ failure = { cause := .noSuchWord existing }
  unchanged : ∀ (i : Nat) (name existing : String), log[i]? = some (.copy name existing) →
    (∀ j < i, ¬log.Binds existing j) → log.before (i + 1) = log.before i
  /-- No edit of another name matters, not even of the name that was copied. -/
  kept : ∀ name i k, i ≤ k → (∀ j, i ≤ j → j < k → ¬log.Binds name j) →
    (log.before k).find? name = (log.before i).find? name
  counted : ∃ names : List String, names.Nodup ∧ (∀ name, name ∈ names ↔ ∃ i, log.Binds name i) ∧
    (Dictionary.ofLog log).size = names.length
  shared : ∀ m n, (∃ v w, (Dictionary.ofLog log).find? m = some v ∧
      (Dictionary.ofLog log).find? n = some w ∧ v.behavior = w.behavior) ↔
    ∃ i j k, log.BindsLast log.length m i ∧ log.BindsLast log.length n j ∧
      log.Origin i k ∧ log.Origin j k

theorem reads_of_fresh (hfresh : log.Fresh) : log.Reads where
  found _ _ := find?_ofLog
  missing _ := find?_ofLog_eq_none_iff
  named _ _ := Dictionary.name_eq_of_find?
  copied i name existing hi hb := by
    obtain ⟨w, hfind, hentry, hsucc⟩ := (readsAt log i).exists_copied hi hb
    refine ⟨w, hfind, ?_, ?_, hentry⟩
    · rw [hsucc]
      exact Dictionary.addAlias_of_find? hfind
    · rw [hsucc]
      exact Dictionary.find?_define_self _ (w.renamed name)
  refused i name existing _ failure := by
    rw [Dictionary.addAlias_eq_error_iff, (readsAt log i).find?_eq_none_iff]
  unchanged i name existing hi hnot := (readsAt log i).before_succ_of_not_bound hi hnot
  kept _ _ _ := find?_before_of_not_binds
  counted := ⟨(Dictionary.ofLog log).names, Dictionary.nodup_names _, fun _ => mem_names_ofLog,
    (List.length_map _).symm⟩
  shared := hfresh.shared_iff

/-- A copy of a copy outlives a copy of a word to its own name, a copy of nothing and
another definition. -/
theorem reads_of_fresh_shadowed :
    let log : Log Nat :=
      [.define { name := "a", behavior := 0 }, .copy "b" "a", .copy "c" "b", .copy "a" "a",
        .copy "c" "d", .define { name := "a", behavior := 1 }]
    log.Fresh ∧ log.Reads ∧
      ((Dictionary.ofLog log).find? "a").map Word.behavior = some 1 ∧
      ((Dictionary.ofLog log).find? "c").map Word.behavior = some 0 ∧
      (∃ i j k, log.BindsLast log.length "b" i ∧ log.BindsLast log.length "c" j ∧
        log.Origin i k ∧ log.Origin j k) := by
  intro log
  have hfresh : log.Fresh := by
    unfold Fresh
    decide
  refine ⟨hfresh, reads_of_fresh hfresh, by decide +kernel, by decide +kernel, ?_⟩
  exact ((reads_of_fresh hfresh).shared "b" "c").mp ⟨_, _, rfl, rfl, rfl⟩

end Log

end Forth
