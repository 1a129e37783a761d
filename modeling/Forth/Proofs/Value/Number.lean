import Forth.Proofs.Value.Literal
import Forth.Text.Blank

/-! # Which texts are numbers

A text is an integer if the grammar says so and its value fits, else a float if
the grammar of decimals says so, else no number. Of the two readings of a text
only the first that succeeds counts.
-/

namespace Forth

namespace Literal

/-- The text without its underscores. -/
def plain (cs : List Char) : List Char := cs.filter (· ≠ '_')

theorem plain_of_not_mem {cs : List Char} (h : '_' ∉ cs) : plain cs = cs :=
  List.filter_eq_self.mpr fun _ hc => decide_eq_true fun heq => h (heq ▸ hc)

theorem plain_append (cs more : List Char) : plain (cs ++ more) = plain cs ++ plain more :=
  List.filter_append cs more

theorem IsDigit.ne_underscore {radix d : Nat} {c : Char} (h : IsDigit radix c d) : c ≠ '_' := by
  rintro rfl
  exact absurd h.mem (by decide)

theorem Group.plain {radix : Nat} {cs : List Char} {ds : List Nat} (h : Group radix cs ds) :
    Group radix (plain cs) ds := by
  induction h with
  | last hc =>
    rw [plain_of_not_mem (by simpa using hc.ne_underscore.symm)]
    exact .last hc
  | next hc _ ih =>
    rw [Literal.plain, List.filter_cons_of_pos (by simpa using hc.ne_underscore)]
    exact .next hc ih
  | separated hc _ ih =>
    rw [Literal.plain, List.filter_cons_of_pos (by simpa using hc.ne_underscore),
      List.filter_cons_of_neg (by decide)]
    exact .next hc ih

theorem Sign.plain_eq {sign : List Char} {negative : Bool} (h : Sign sign negative) :
    plain sign = sign := by
  cases h <;> rfl

theorem Fraction.plain {cs : List Char} {ds : List Nat} (h : Fraction cs ds) :
    Fraction (plain cs) ds := by
  cases h with
  | none => exact .none
  | some hgroup => exact .some hgroup.plain

theorem underscore_not_mem_of_forall₂ {cs : List Char} {ds : List Nat}
    (h : List.Forall₂ (IsDigit 10) cs ds) : '_' ∉ cs := by
  induction h with
  | nil => exact List.not_mem_nil
  | cons hc _ ih => exact List.not_mem_cons_of_ne_of_not_mem hc.ne_underscore.symm ih

theorem Exponent.plain_eq {cs : List Char} {e : Int} (h : Exponent cs e) : plain cs = cs := by
  cases h with
  | none => rfl
  | @some c sign digits _ ds hc hsign _ hdigits =>
    have hmark : c ≠ '_' := by
      rintro rfl
      exact absurd hc (by decide)
    have hno := underscore_not_mem_of_forall₂ hdigits
    rw [plain, List.filter_cons_of_pos (by simpa using hmark)]
    change c :: plain (sign ++ digits) = _
    rw [plain_append, hsign.plain_eq, plain_of_not_mem hno]

theorem SpellsDecimal.plain {cs : List Char} {negative : Bool} {d : Decimal}
    (h : SpellsDecimal cs negative d) : SpellsDecimal (plain cs) negative d := by
  obtain ⟨sign, whole, wholeDigits, fraction, fractionDigits, exponent, e, hsign, hwhole, hfraction,
    hexponent, rfl, rfl⟩ := h
  refine ⟨sign, _, wholeDigits, _, fractionDigits, exponent, e, hsign, hwhole.plain,
    hfraction.plain, hexponent, ?_, rfl⟩
  rw [plain_append, plain_append, plain_append, hsign.plain_eq, hexponent.plain_eq]

theorem spellsDecimal_of_spellsInteger {cs : List Char} {n : Int} (h : SpellsInteger 10 cs n) :
    ∃ negative d, SpellsDecimal cs negative d := by
  obtain ⟨sign, negative, mark, group, digits, hsign, hmark, hgroup, rfl, -⟩ := h
  cases hmark
  refine ⟨negative, _, sign, group, digits, [], [], [], 0, hsign, hgroup, .none, .none, ?_, rfl⟩
  simp only [List.append_nil]

/-- Behind a mark there is no decimal, since the letter of the mark is none of its parts. -/
theorem not_spellsDecimal_of_marked {radix : Nat} {cs : List Char} {n : Int} (hradix : radix ≠ 10)
    (h : SpellsInteger radix cs n) {negative : Bool} {d : Decimal} :
    ¬SpellsDecimal cs negative d := by
  intro hdecimal
  obtain ⟨sign, negative', mark, group, digits, hsign, hmark, -, rfl, -⟩ := h
  obtain ⟨letter, rfl, hmantissa, hpoint, hletter⟩ : ∃ letter, mark = ['0', letter] ∧
      isMantissa letter = true ∧ letter ≠ '.' ∧ letter ∉ "_0123456789".toList := by
    cases hmark with
    | decimal => exact absurd rfl hradix
    | hexadecimal | binary | octal => exact ⟨_, rfl, rfl, by decide, by decide⟩
  have hsplit : splitSign (sign ++ ['0', letter] ++ group) =
      (negative', '0' :: letter :: group) := by
    rw [List.append_assoc]
    exact splitSign_of_sign hsign (by decide)
  have hread := decimal?_of_spellsDecimal hdecimal
  rw [decimal?_eq, hsplit] at hread
  simp only [Option.bind_eq_bind, Option.bind_eq_some_iff] at hread
  obtain ⟨whole, hwhole, -⟩ := hread
  have hgroup := group_of_group? (by decide) hwhole
  have hmem : letter ∈ List.takeWhile (· ≠ '.')
      (List.takeWhile isMantissa ('0' :: letter :: group)) := by
    have hzero : isMantissa '0' = true := rfl
    simp [hzero, hmantissa, hpoint]
  exact hgroup.ne_of_mem hmem hletter rfl

/-- The text is an integer of 64 bits. -/
def IsInteger (text : String) (n : Int) : Prop :=
  (∃ radix, SpellsInteger radix text.toList n) ∧
    -9223372036854775808 ≤ n ∧ n ≤ 9223372036854775807

def IsDecimal (text : String) : Prop :=
  ∃ negative d, SpellsDecimal text.toList negative d

theorem ofInt?_eq_some_iff {n : Int} {v : Value} :
    Value.ofInt? n = some v ↔
      (-9223372036854775808 ≤ n ∧ n ≤ 9223372036854775807) ∧ v = .int (Int64.ofInt n) := by
  have hmin : Int64.minValue.toInt = -9223372036854775808 := by decide
  have hmax : Int64.maxValue.toInt = 9223372036854775807 := by decide
  rw [Value.ofInt?, hmin, hmax, Option.ite_none_right_eq_some, Option.some.injEq, eq_comm (a := v)]

theorem bind_ofInt?_eq_some_iff {text : String} {v : Value} :
    integer? text.toList >>= Value.ofInt? = some v ↔
      ∃ n, IsInteger text n ∧ v = .int (Int64.ofInt n) := by
  simp only [Option.bind_eq_bind, Option.bind_eq_some_iff, integer?_eq_some_iff,
    ofInt?_eq_some_iff, IsInteger, and_assoc]

theorem float?_eq_some_iff {cs : List Char} {x : Float} :
    float? cs = some x ↔
      ∃ negative d, SpellsDecimal cs negative d ∧ x = Binary64.ofMagnitude negative d.toBits := by
  simp only [float?, Option.bind_eq_bind, Option.bind_eq_some_iff, Option.pure_def,
    Option.some.injEq, Prod.exists, decimal?_eq_some_iff, eq_comm (a := x)]

theorem float?_plain {cs : List Char} {x : Float} (h : float? cs = some x) :
    float? (plain cs) = some x := by
  obtain ⟨negative, d, hd, rfl⟩ := float?_eq_some_iff.mp h
  exact float?_eq_some_iff.mpr ⟨negative, d, hd.plain, rfl⟩

section OfText

variable {text : String}

/-- What is an integer is not also read as a float. -/
theorem ofText?_eq_some_iff {v : Value} :
    Value.ofText? text = some v ↔
      (∃ n, IsInteger text n ∧ v = .int (Int64.ofInt n)) ∨
        (∀ n, ¬IsInteger text n) ∧ ∃ x, float? text.toList = some x ∧ v = .float x := by
  have hnone : integer? text.toList >>= Value.ofInt? = none ↔ ∀ n, ¬IsInteger text n := by
    rw [Option.eq_none_iff_forall_ne_some]
    constructor
    · intro h n hn
      exact h _ (bind_ofInt?_eq_some_iff.mpr ⟨n, hn, rfl⟩)
    · intro h v hv
      obtain ⟨n, hn, -⟩ := bind_ofInt?_eq_some_iff.mp hv
      exact h n hn
  rw [Value.ofText?, Option.orElse_eq_orElse, Option.orElse_eq_or, Option.or_eq_some_iff, hnone,
    bind_ofInt?_eq_some_iff]
  simp only [Option.map_eq_some_iff, eq_comm (a := v)]

theorem ofText?_eq_int_iff {n : Int64} :
    Value.ofText? text = some (.int n) ↔ IsInteger text n.toInt := by
  rw [ofText?_eq_some_iff]
  constructor
  · rintro (⟨m, hm, h⟩ | ⟨-, x, -, h⟩)
    · have hrange : (Int64.ofInt m).toInt = m :=
        Int64.toInt_ofInt_of_le hm.2.1 (Int.lt_of_le_of_lt hm.2.2 (by decide))
      rw [Value.int.inj h, hrange]
      exact hm
    · cases h
  · intro h
    exact .inl ⟨_, h, by rw [Int64.ofInt_toInt]⟩

theorem ofText?_eq_float_iff {x : Float} :
    Value.ofText? text = some (.float x) ↔
      (∀ n, ¬IsInteger text n) ∧ float? text.toList = some x := by
  rw [ofText?_eq_some_iff]
  constructor
  · rintro (⟨m, -, h⟩ | ⟨hnone, y, hy, h⟩)
    · cases h
    · rw [Value.float.inj h]
      exact ⟨hnone, hy⟩
  · rintro ⟨hnone, hx⟩
    exact .inr ⟨hnone, x, hx, rfl⟩

theorem exists_float?_iff {cs : List Char} :
    (∃ x, float? cs = some x) ↔ ∃ negative d, SpellsDecimal cs negative d := by
  constructor
  · rintro ⟨x, hx⟩
    obtain ⟨negative, d, hd, -⟩ := float?_eq_some_iff.mp hx
    exact ⟨negative, d, hd⟩
  · rintro ⟨negative, d, hd⟩
    exact ⟨_, float?_eq_some_iff.mpr ⟨negative, d, hd, rfl⟩⟩

theorem ofText?_eq_none_iff :
    Value.ofText? text = none ↔ (∀ n, ¬IsInteger text n) ∧ ¬IsDecimal text := by
  rw [IsDecimal, ← exists_float?_iff, Option.eq_none_iff_forall_ne_some]
  constructor
  · intro h
    have hnone : ∀ n, ¬IsInteger text n :=
      fun n hn => h _ (ofText?_eq_some_iff.mpr (.inl ⟨n, hn, rfl⟩))
    refine ⟨hnone, ?_⟩
    rintro ⟨x, hx⟩
    exact h _ (ofText?_eq_float_iff.mpr ⟨hnone, hx⟩)
  · rintro ⟨hnone, hfloat⟩ v hv
    rcases ofText?_eq_some_iff.mp hv with ⟨n, hn, -⟩ | ⟨-, x, hx, -⟩
    · exact hnone n hn
    · exact hfloat ⟨x, hx⟩

/-- An integer has one value, so one out of range is none in range. -/
theorem not_isInteger_of_spellsInteger {radix : Nat} {n : Int}
    (h : SpellsInteger radix text.toList n)
    (hrange : n < -9223372036854775808 ∨ 9223372036854775807 < n) (m : Int) :
    ¬IsInteger text m := by
  rintro ⟨hm, hlow, hhigh⟩
  have hn := integer?_eq_some_iff.mpr ⟨radix, h⟩
  rw [integer?_eq_some_iff.mpr hm, Option.some.injEq] at hn
  omega

end OfText

/-- A text may be cut between any two of its characters. -/
theorem isValid_of_append {cs before after : List Char} (h : cs = before ++ after) :
    String.Pos.Raw.IsValid (String.ofList cs) ⟨(String.ofList before).utf8ByteSize⟩ := by
  rw [String.Pos.Raw.isValid_iff_exists_append]
  refine ⟨String.ofList before, String.ofList after, ?_, rfl⟩
  rw [h, String.ofList_append]

/-- How a text is read: as an integer, else as a float, else not at all. The
float is that of the text without its underscores. Each cut of a text, at the
mark of an exponent and behind it, is between two characters. -/
structure FollowsGrammar (text : String) : Prop where
  int_iff : ∀ n : Int64, Value.ofText? text = some (.int n) ↔ IsInteger text n.toInt
  float_iff : ∀ x : Float, Value.ofText? text = some (.float x) ↔
    (∀ n, ¬IsInteger text n) ∧ IsDecimal text ∧ float? (plain text.toList) = some x
  float_value : ∀ negative d, SpellsDecimal (plain text.toList) negative d →
    float? (plain text.toList) = some (Binary64.ofMagnitude negative d.toBits)
  none_iff : Value.ofText? text = none ↔ (∀ n, ¬IsInteger text n) ∧ ¬IsDecimal text
  beyond_decimal : ∀ n, SpellsInteger 10 text.toList n →
    n < -9223372036854775808 ∨ 9223372036854775807 < n → ∃ x, Value.ofText? text = some (.float x)
  beyond_marked : ∀ radix n, radix ≠ 10 → SpellsInteger radix text.toList n →
    n < -9223372036854775808 ∨ 9223372036854775807 < n → Value.ofText? text = none
  radix_le : 2 ≤ (splitRadix (splitSign text.toList).2).1 ∧
    (splitRadix (splitSign text.toList).2).1 ≤ 36
  cut : ∀ before mark after, (splitSign text.toList).2 = before ++ mark :: after →
    mark = 'e' ∨ mark = 'E' →
      String.Pos.Raw.IsValid (String.ofList (splitSign text.toList).2)
          ⟨(String.ofList before).utf8ByteSize⟩ ∧
        String.Pos.Raw.IsValid (String.ofList (splitSign text.toList).2)
          ⟨(String.ofList before).utf8ByteSize + 1⟩

theorem followsGrammar (text : String) : FollowsGrammar text := by
  constructor
  case int_iff => exact fun n => ofText?_eq_int_iff
  case none_iff => exact ofText?_eq_none_iff
  case float_iff =>
    intro x
    rw [ofText?_eq_float_iff, IsDecimal, ← exists_float?_iff]
    refine and_congr_right fun _ => ⟨fun h => ⟨⟨x, h⟩, float?_plain h⟩, ?_⟩
    rintro ⟨⟨y, hy⟩, hx⟩
    rw [float?_plain hy, Option.some.injEq] at hx
    rw [hy, hx]
  case float_value => exact fun negative d hd => float?_eq_some_iff.mpr ⟨negative, d, hd, rfl⟩
  case beyond_decimal =>
    intro n hn hrange
    obtain ⟨x, hx⟩ := exists_float?_iff.mpr (spellsDecimal_of_spellsInteger hn)
    exact ⟨x, ofText?_eq_float_iff.mpr ⟨not_isInteger_of_spellsInteger hn hrange, hx⟩⟩
  case beyond_marked =>
    intro radix n hradix hn hrange
    refine ofText?_eq_none_iff.mpr ⟨not_isInteger_of_spellsInteger hn hrange, ?_⟩
    rintro ⟨negative, d, hd⟩
    exact not_spellsDecimal_of_marked hradix hn hd
  case radix_le =>
    obtain ⟨mark, hmark, -⟩ := exists_mark (splitSign text.toList).2
    generalize (splitRadix (splitSign text.toList).2).1 = radix at hmark
    cases hmark <;> decide
  case cut =>
    intro before mark after hcs hmark
    refine ⟨isValid_of_append hcs, ?_⟩
    have hbehind : (splitSign text.toList).2 = (before ++ [mark]) ++ after := by simpa using hcs
    have hsize : (String.ofList (before ++ [mark])).utf8ByteSize =
        (String.ofList before).utf8ByteSize + 1 := by
      rw [String.ofList_append, String.utf8ByteSize_append]
      rcases hmark with rfl | rfl <;> rfl
    rw [← hsize]
    exact isValid_of_append hbehind

/-- Every character that a number can be written with. -/
def alphabet : List Char := "+-_.exboE0123456789abcdefABCDEF".toList

theorem isBlank_of_mem_alphabet {c : Char} (hc : c ∈ alphabet) : isBlank c = false := by
  have hall : alphabet.all (fun c => !isBlank c) = true := rfl
  simpa using List.all_eq_true.mp hall c hc

section Alphabet

variable {cs digits : List Char}

theorem IsDigit.mem_alphabet {radix d : Nat} {c : Char} (h : IsDigit radix c d) : c ∈ alphabet :=
  List.mem_append_right "+-_.exboE".toList h.mem

theorem Group.subset_alphabet {radix : Nat} {ds : List Nat} (h : Group radix cs ds) :
    cs ⊆ alphabet := by
  intro c hc
  rcases h.cases_of_mem hc with rfl | ⟨d, hd⟩
  · decide
  · exact hd.mem_alphabet

theorem Sign.subset_alphabet {negative : Bool} (h : Sign cs negative) : cs ⊆ alphabet := by
  cases h <;> decide

theorem Mark.subset_alphabet {radix : Nat} (h : Mark cs radix) : cs ⊆ alphabet := by
  cases h <;> decide

theorem Fraction.subset_alphabet {ds : List Nat} (h : Fraction cs ds) : cs ⊆ alphabet := by
  cases h with
  | none => exact List.nil_subset _
  | some hgroup => exact List.cons_subset.mpr ⟨by decide, hgroup.subset_alphabet⟩

theorem subset_alphabet_of_forall₂ {ds : List Nat} (h : List.Forall₂ (IsDigit 10) digits ds) :
    digits ⊆ alphabet := by
  induction h with
  | nil => exact List.nil_subset _
  | cons hc _ ih => exact List.cons_subset.mpr ⟨hc.mem_alphabet, ih⟩

theorem Exponent.subset_alphabet {e : Int} (h : Exponent cs e) : cs ⊆ alphabet := by
  cases h with
  | none => exact List.nil_subset _
  | some hc hsign _ hdigits =>
    refine List.cons_subset.mpr ⟨?_, List.append_subset.mpr
      ⟨hsign.subset_alphabet, subset_alphabet_of_forall₂ hdigits⟩⟩
    rcases hc with rfl | rfl <;> decide

theorem SpellsInteger.subset_alphabet {radix : Nat} {n : Int} (h : SpellsInteger radix cs n) :
    cs ⊆ alphabet := by
  obtain ⟨sign, _, mark, group, _, hsign, hmark, hgroup, rfl, -⟩ := h
  simp only [List.append_subset]
  exact ⟨⟨hsign.subset_alphabet, hmark.subset_alphabet⟩, hgroup.subset_alphabet⟩

theorem SpellsDecimal.subset_alphabet {negative : Bool} {d : Decimal}
    (h : SpellsDecimal cs negative d) : cs ⊆ alphabet := by
  obtain ⟨sign, whole, _, fraction, _, exponent, _, hsign, hwhole, hfraction, hexponent, rfl, -⟩ := h
  simp only [List.append_subset]
  exact ⟨⟨⟨hsign.subset_alphabet, hwhole.subset_alphabet⟩, hfraction.subset_alphabet⟩,
    hexponent.subset_alphabet⟩

end Alphabet

/-- What is read as a number is a word: it is not empty, and there is no white space in it. -/
theorem notBlank_of_ofText? {text : String} {v : Value} (h : Value.ofText? text = some v) :
    text.toList ≠ [] ∧ ∀ c ∈ text.toList, isBlank c = false := by
  have hsubset : text.toList ⊆ alphabet := by
    rcases ofText?_eq_some_iff.mp h with ⟨n, ⟨⟨radix, hn⟩, -⟩, -⟩ | ⟨-, x, hx, -⟩
    · exact hn.subset_alphabet
    · obtain ⟨negative, d, hd, -⟩ := float?_eq_some_iff.mp hx
      exact hd.subset_alphabet
  refine ⟨fun hempty => ?_, fun c hc => isBlank_of_mem_alphabet (hsubset hc)⟩
  rw [String.toList_eq_nil_iff.mp hempty] at h
  cases h

end Literal

end Forth
