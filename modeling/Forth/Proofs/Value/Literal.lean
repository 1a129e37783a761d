import Forth.Proofs.Value.Grammar
import Mathlib.Data.List.Forall2
import Mathlib.Data.List.Induction
import Mathlib.Data.List.TakeDrop
import Mathlib.Data.List.TakeWhile

/-! # Reading numbers

A text is read as a number exactly if the grammar says that it is one. Signs and
marks are split off first, then a float at its `e` and at its point. None of
these characters can stand in a group, so nothing is split in the wrong place.
-/

namespace Forth.Literal

section Split

variable {cs sign mark group rest : List Char} {c : Char} {negative : Bool} {radix : Nat}

theorem exists_sign (cs : List Char) :
    ∃ sign, Sign sign (splitSign cs).1 ∧ cs = sign ++ (splitSign cs).2 := by
  fun_cases splitSign cs with
  | case1 rest => exact ⟨_, .minus, rfl⟩
  | case2 rest => exact ⟨_, .plus, rfl⟩
  | case3 => exact ⟨_, .none, rfl⟩

theorem splitSign_of_sign (h : Sign sign negative) (hc : c ∉ ['+', '-']) :
    splitSign (sign ++ c :: rest) = (negative, c :: rest) := by
  cases h with
  | none =>
    rw [List.nil_append, splitSign]
    · rintro rest ⟨rfl, -⟩
      exact hc (by decide)
    · rintro rest ⟨rfl, -⟩
      exact hc (by decide)
  | plus => rfl
  | minus => rfl

theorem Mark.le (h : Mark mark radix) : radix ≤ 16 := by
  cases h <;> decide

theorem exists_mark (cs : List Char) :
    ∃ mark, Mark mark (splitRadix cs).1 ∧ cs = mark ++ (splitRadix cs).2 := by
  fun_cases splitRadix cs with
  | case1 rest => exact ⟨_, .hexadecimal, rfl⟩
  | case2 rest => exact ⟨_, .binary, rfl⟩
  | case3 rest => exact ⟨_, .octal, rfl⟩
  | case4 => exact ⟨_, .decimal, rfl⟩

theorem splitRadix_of_mark {ds : List Nat} (h : Mark mark radix) (hgroup : Group radix group ds) :
    splitRadix (mark ++ group) = (radix, group) := by
  cases h with
  | decimal =>
    -- the second character of a decimal group is a digit or an underscore
    have hsecond {c d : Char} {rest : List Char} (heq : group = c :: d :: rest) :
        d ∈ "_0123456789".toList := by
      have hd : d ∈ group := by simp [heq]
      rcases hgroup.cases_of_mem hd with rfl | ⟨value, hvalue⟩
      · decide
      · exact List.mem_cons_of_mem '_' hvalue.mem_decimal
    rw [List.nil_append, splitRadix]
    all_goals
      intro rest heq
      exact absurd (hsecond heq) (by decide)
  | hexadecimal => rfl
  | binary => rfl
  | octal => rfl

end Split

theorem ofDigits_eq (radix : Nat) (digits : List Nat) :
    ofDigits radix digits = Nat.ofDigits radix digits.reverse := by
  induction digits using List.reverseRecOn with
  | nil => rfl
  | append_singleton digits d ih =>
    rw [ofDigits, List.foldl_append, List.reverse_append, List.reverse_singleton,
      List.singleton_append, Nat.ofDigits_cons, ← ih, Nat.add_comm]
    rfl

theorem head_not_mem_signs {radix d : Nat} {c : Char} (h : IsDigit radix c d) :
    c ∉ ['+', '-'] := by
  intro hc
  have hmem := h.mem
  rcases List.mem_cons.mp hc with rfl | hc
  · revert hmem
    decide
  · obtain rfl := List.mem_singleton.mp hc
    revert hmem
    decide

/-- An integer begins, behind its sign, with a digit. -/
theorem exists_cons_of_mark {mark group : List Char} {radix : Nat} {digits : List Nat}
    (h : Mark mark radix) (hgroup : Group radix group digits) :
    ∃ c rest, mark ++ group = c :: rest ∧ c ∉ ['+', '-'] := by
  cases h with
  | decimal =>
    obtain ⟨c, more, d, rfl, hc⟩ := hgroup.exists_cons
    exact ⟨c, more, rfl, head_not_mem_signs hc⟩
  | hexadecimal | binary | octal => exact ⟨_, _, rfl, by decide⟩

theorem integer?_eq_some_iff {cs : List Char} {n : Int} :
    integer? cs = some n ↔ ∃ radix, SpellsInteger radix cs n := by
  constructor
  · intro h
    simp only [integer?, Option.bind_eq_bind, Option.bind_eq_some_iff, Option.pure_def,
      Option.some.injEq] at h
    obtain ⟨digits, hdigits, rfl⟩ := h
    obtain ⟨sign, hsign, hcs⟩ := exists_sign cs
    obtain ⟨mark, hmark, hrest⟩ := exists_mark (splitSign cs).2
    refine ⟨_, sign, _, mark, _, digits, hsign, hmark, group_of_group? hmark.le hdigits, ?_, ?_⟩
    · rw [List.append_assoc, ← hrest, ← hcs]
    · rw [← ofDigits_eq, signed]
  · rintro ⟨radix, sign, negative, mark, group, digits, hsign, hmark, hgroup, rfl, rfl⟩
    obtain ⟨c, rest, hcons, hc⟩ := exists_cons_of_mark hmark hgroup
    have hsplit : splitSign (sign ++ mark ++ group) = (negative, mark ++ group) := by
      rw [List.append_assoc, hcons]
      exact splitSign_of_sign hsign hc
    simp only [integer?, hsplit, splitRadix_of_mark hmark hgroup, group?_of_group hmark.le hgroup,
      ofDigits_eq, signed]
    rfl

section Float

theorem span_append {p : Char → Bool} {front back : List Char} (hfront : ∀ c ∈ front, p c = true)
    (hback : ∀ c ∈ back.head?, p c = false) : (front ++ back).span p = (front, back) := by
  rw [List.span_eq_takeWhile_dropWhile, List.takeWhile_append_of_pos hfront,
    List.dropWhile_append_of_pos hfront]
  cases back with
  | nil => simp
  | cons c back =>
    have hc : p c = false := hback c rfl
    simp [hc]

def isMantissa (c : Char) : Bool := c ≠ 'e' && c ≠ 'E'

theorem isMantissa_eq_false {c : Char} : isMantissa c = false ↔ c = 'e' ∨ c = 'E' := by
  simp only [isMantissa, Bool.and_eq_false_iff, decide_eq_false_iff_not, not_not]

theorem mapM_digit?_eq_some_iff {cs : List Char} {ds : List Nat} :
    cs.mapM (digit? 10) = some ds ↔ List.Forall₂ (IsDigit 10) cs ds := by
  induction cs generalizing ds with
  | nil => simp [eq_comm]
  | cons c cs ih =>
    simp only [List.mapM_cons, Option.bind_eq_bind, Option.bind_eq_some_iff, Option.pure_def,
      Option.some.injEq, List.forall₂_cons_left_iff, digit?_eq_some_iff (by decide : 10 ≤ 16), ih]
    constructor
    · rintro ⟨d, hd, more, hmore, rfl⟩
      exact ⟨d, more, hd, hmore, rfl⟩
    · rintro ⟨d, more, hd, hmore, rfl⟩
      exact ⟨d, hd, more, hmore, rfl⟩

theorem exponent_of_exponent? {tail : List Char} {e : Int}
    (htail : ∀ c ∈ tail.head?, c = 'e' ∨ c = 'E') (h : exponent? tail = some e) :
    Exponent tail e := by
  cases tail with
  | nil =>
    cases h
    exact .none
  | cons c cs =>
    obtain ⟨sign, hsign, hcs⟩ := exists_sign cs
    simp only [exponent?, Option.bind_eq_bind, Option.bind_eq_some_iff, Option.pure_def,
      Option.ite_none_left_eq_some, Option.some.injEq] at h
    obtain ⟨digits, hdigits, hne, rfl⟩ := h
    have hforall := mapM_digit?_eq_some_iff.mp hdigits
    have hnil : (splitSign cs).2 ≠ [] := by
      rintro hnil
      rw [hnil, List.forall₂_nil_left_iff] at hforall
      exact hne (by rw [hforall]; rfl)
    have hexponent := Exponent.some (htail c rfl) hsign hnil hforall
    rw [← hcs] at hexponent
    exact hexponent

theorem exponent?_of_exponent {tail : List Char} {e : Int} (h : Exponent tail e) :
    exponent? tail = some e := by
  cases h with
  | none => rfl
  | @some c sign digits negative ds hc hsign hne hdigits =>
    obtain ⟨first, more, rfl⟩ := List.exists_cons_of_ne_nil hne
    obtain ⟨d, ds', hd, hmore, rfl⟩ := List.forall₂_cons_left_iff.mp hdigits
    have hsplit : splitSign (sign ++ first :: more) = (negative, first :: more) :=
      splitSign_of_sign hsign (head_not_mem_signs hd)
    have hmap := mapM_digit?_eq_some_iff.mpr hdigits
    simp [exponent?, hsplit, hmap, signed]

theorem fraction_of_fraction? {point : List Char} {ds : List Nat}
    (hpoint : ∀ c ∈ point.head?, c = '.') (h : fraction? point = some ds) : Fraction point ds := by
  cases point with
  | nil =>
    cases h
    exact .none
  | cons c cs =>
    obtain rfl := hpoint c rfl
    exact .some (group_of_group? (by decide) h)

theorem fraction?_of_fraction {point : List Char} {ds : List Nat} (h : Fraction point ds) :
    fraction? point = some ds := by
  cases h with
  | none => rfl
  | some hgroup => exact group?_of_group (by decide) hgroup

theorem decimal?_eq (cs : List Char) :
    decimal? cs = do
      let significand := (splitSign cs).2.takeWhile isMantissa
      let whole ← group? 10 (significand.takeWhile (· ≠ '.'))
      let fraction ← fraction? (significand.dropWhile (· ≠ '.'))
      let exponent ← exponent? ((splitSign cs).2.dropWhile isMantissa)
      return ((splitSign cs).1,
        { digits := ofDigits 10 (whole ++ fraction), exponent := exponent - fraction.length }) := by
  simp only [decimal?, List.span_eq_takeWhile_dropWhile]
  rfl

theorem spellsDecimal_of_decimal? {cs : List Char} {negative : Bool} {d : Decimal}
    (h : decimal? cs = some (negative, d)) : SpellsDecimal cs negative d := by
  obtain ⟨sign, hsign, hcs⟩ := exists_sign cs
  rw [decimal?_eq] at h
  generalize splitSign cs = split at h hsign hcs
  obtain ⟨negative', rest⟩ := split
  have hrest := List.takeWhile_append_dropWhile (p := isMantissa) (l := rest)
  have htail : ∀ c ∈ (rest.dropWhile isMantissa).head?, c = 'e' ∨ c = 'E' := by
    intro c hc
    have hhead := List.head?_dropWhile_not isMantissa rest
    rw [hc] at hhead
    exact isMantissa_eq_false.mp hhead
  generalize rest.takeWhile isMantissa = significand at h hrest
  generalize rest.dropWhile isMantissa = tail at h hrest htail
  have hsignificand := List.takeWhile_append_dropWhile (p := (· ≠ '.')) (l := significand)
  have hpoint : ∀ c ∈ (significand.dropWhile (· ≠ '.')).head?, c = '.' := by
    intro c hc
    have hhead := List.head?_dropWhile_not (fun c => decide (c ≠ '.')) significand
    rw [hc] at hhead
    simpa using hhead
  simp only [Option.bind_eq_bind, Option.bind_eq_some_iff, Option.pure_def, Option.some.injEq,
    Prod.mk.injEq] at h
  obtain ⟨whole, hwhole, fraction, hfraction, exponent, hexponent, rfl, rfl⟩ := h
  refine ⟨sign, _, whole, _, fraction, tail, exponent, hsign, group_of_group? (by decide) hwhole,
    fraction_of_fraction? hpoint hfraction, exponent_of_exponent? htail hexponent, ?_, ?_⟩
  · rw [List.append_assoc sign, hsignificand, List.append_assoc, hrest, hcs]
  · rw [← ofDigits_eq]

theorem Group.ne_of_mem {whole : List Char} {ds : List Nat} (h : Group 10 whole ds) {c x : Char}
    (hc : c ∈ whole) (hx : x ∉ "_0123456789".toList) : c ≠ x := by
  rintro rfl
  rcases h.cases_of_mem hc with rfl | ⟨d, hd⟩
  · exact hx (by decide)
  · exact hx (List.mem_cons_of_mem '_' hd.mem_decimal)

theorem isMantissa_of_mem {whole : List Char} {ds : List Nat} (h : Group 10 whole ds) {c : Char}
    (hc : c ∈ whole) : isMantissa c = true := by
  have hlower : c ≠ 'e' := h.ne_of_mem hc (by decide)
  have hupper : c ≠ 'E' := h.ne_of_mem hc (by decide)
  simp [isMantissa, hlower, hupper]

theorem decimal?_of_spellsDecimal {cs : List Char} {negative : Bool} {d : Decimal}
    (h : SpellsDecimal cs negative d) : decimal? cs = some (negative, d) := by
  obtain ⟨sign, whole, wholeDigits, fraction, fractionDigits, exponent, e, hsign, hwhole, hfraction,
    hexponent, rfl, rfl⟩ := h
  have hsplit : splitSign (sign ++ whole ++ fraction ++ exponent) =
      (negative, whole ++ fraction ++ exponent) := by
    obtain ⟨c, more, value, rfl, hc⟩ := hwhole.exists_cons
    simp only [List.append_assoc, List.cons_append]
    exact splitSign_of_sign hsign (head_not_mem_signs hc)
  have hmantissa : ∀ c ∈ whole ++ fraction, isMantissa c = true := by
    intro c hc
    rcases List.mem_append.mp hc with hc | hc
    · exact isMantissa_of_mem hwhole hc
    · cases hfraction with
      | none => cases hc
      | some hgroup =>
        rcases List.mem_cons.mp hc with rfl | hc
        · rfl
        · exact isMantissa_of_mem hgroup hc
  have htail : ∀ c ∈ exponent.head?, isMantissa c = false := by
    intro c hc
    cases hexponent with
    | none => cases hc
    | some he =>
      cases hc
      exact isMantissa_eq_false.mpr he
  have hpoint : ∀ c ∈ fraction.head?, decide (c ≠ '.') = false := by
    intro c hc
    cases hfraction with
    | none => cases hc
    | some =>
      cases hc
      rfl
  have hfront : ∀ c ∈ whole, decide (c ≠ '.') = true :=
    fun c hc => decide_eq_true (hwhole.ne_of_mem hc (by decide))
  have hspan : (whole ++ fraction ++ exponent).span (fun c => c ≠ 'e' && c ≠ 'E') =
      (whole ++ fraction, exponent) := span_append hmantissa htail
  simp only [decimal?, hsplit, hspan, span_append hfront hpoint,
    group?_of_group (by decide : 10 ≤ 16) hwhole, fraction?_of_fraction hfraction,
    exponent?_of_exponent hexponent, ofDigits_eq]
  rfl

theorem decimal?_eq_some_iff {cs : List Char} {negative : Bool} {d : Decimal} :
    decimal? cs = some (negative, d) ↔ SpellsDecimal cs negative d :=
  ⟨spellsDecimal_of_decimal?, decimal?_of_spellsDecimal⟩

end Float

end Forth.Literal
