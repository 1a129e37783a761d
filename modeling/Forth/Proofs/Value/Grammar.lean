import Forth.Value.Literal
import Mathlib.Data.Nat.Digits.Defs
import Mathlib.Tactic.IntervalCases
import Mathlib.Tactic.SplitIfs

/-! # The grammar of numbers

What the literals of numbers look like, and what they say, as relations between
texts and values. Here nothing is tried in turn: a text is composed of its parts.
-/

namespace Forth.Literal

/-- The character is the digit of that value. From ten on digits are letters of either case. -/
def IsDigit (radix : Nat) (c : Char) (d : Nat) : Prop :=
  d < radix ∧
    ("0123456789abcdef".toList[d]? = some c ∨ "0123456789ABCDEF".toList[d]? = some c)

/-- One or more digits, with single underscores between two of them. -/
inductive Group (radix : Nat) : List Char → List Nat → Prop
  | last {c : Char} {d : Nat} : IsDigit radix c d → Group radix [c] [d]
  | next {c : Char} {d : Nat} {cs : List Char} {ds : List Nat} :
      IsDigit radix c d → Group radix cs ds → Group radix (c :: cs) (d :: ds)
  | separated {c : Char} {d : Nat} {cs : List Char} {ds : List Nat} :
      IsDigit radix c d → Group radix cs ds → Group radix (c :: '_' :: cs) (d :: ds)

inductive Sign : List Char → Bool → Prop
  | none : Sign [] false
  | plus : Sign ['+'] false
  | minus : Sign ['-'] true

inductive Mark : List Char → Nat → Prop
  | decimal : Mark [] 10
  | hexadecimal : Mark ['0', 'x'] 16
  | binary : Mark ['0', 'b'] 2
  | octal : Mark ['0', 'o'] 8

inductive Fraction : List Char → List Nat → Prop
  | none : Fraction [] []
  | some {cs : List Char} {ds : List Nat} : Group 10 cs ds → Fraction ('.' :: cs) ds

def signed (negative : Bool) (n : Nat) : Int := if negative then -n else n

/-- An exponent has plain digits only. -/
inductive Exponent : List Char → Int → Prop
  | none : Exponent [] 0
  | some {c : Char} {sign digits : List Char} {negative : Bool} {ds : List Nat} :
      c = 'e' ∨ c = 'E' → Sign sign negative → digits ≠ [] → List.Forall₂ (IsDigit 10) digits ds →
      Exponent (c :: (sign ++ digits)) (signed negative (power ds))

/-- The text is an integer of that radix, of any size. -/
def SpellsInteger (radix : Nat) (cs : List Char) (n : Int) : Prop :=
  ∃ sign negative mark group digits,
    Sign sign negative ∧ Mark mark radix ∧ Group radix group digits ∧
      cs = sign ++ mark ++ group ∧ n = signed negative (Nat.ofDigits radix digits.reverse)

/-- The text is a decimal with an optional fraction and an optional exponent. -/
def SpellsDecimal (cs : List Char) (negative : Bool) (d : Decimal) : Prop :=
  ∃ sign whole wholeDigits fraction fractionDigits exponent e,
    Sign sign negative ∧ Group 10 whole wholeDigits ∧ Fraction fraction fractionDigits ∧
      Exponent exponent e ∧ cs = sign ++ whole ++ fraction ++ exponent ∧
      d = { digits := Nat.ofDigits 10 (wholeDigits ++ fractionDigits).reverse,
            exponent := e - fractionDigits.length }

section Digit

variable {radix d : Nat} {c : Char}

/-- The value of a digit by its code point. -/
def digitValue (radix n : Nat) : Nat :=
  if 48 ≤ n ∧ n ≤ 57 then n - 48
  else if 97 ≤ n ∧ n ≤ 122 then n - 97 + 10
  else if 65 ≤ n ∧ n ≤ 90 then n - 65 + 10
  else radix

theorem digit?_eq (radix : Nat) (c : Char) :
    digit? radix c =
      if digitValue radix c.toNat < radix then some (digitValue radix c.toNat) else none := by
  simp only [digit?, Char.le_def, UInt32.le_iff_toNat_le]
  rfl

theorem isDigit_of_digit? (hradix : radix ≤ 16) (h : digit? radix c = some d) :
    IsDigit radix c d := by
  have hchar : c = Char.ofNat c.toNat := (Char.ofNat_toNat c).symm
  rw [digit?_eq, Option.ite_none_right_eq_some, Option.some.injEq] at h
  obtain ⟨hlt, hd⟩ := h
  rw [hd] at hlt
  rw [digitValue] at hd
  generalize c.toNat = n at hchar hd
  refine ⟨hlt, ?_⟩
  split_ifs at hd with hdigit hlower hupper
  · obtain ⟨hlow, hhigh⟩ := hdigit
    subst hd hchar
    interval_cases n <;> exact .inl rfl
  · obtain ⟨hlow, hhigh⟩ := hlower
    have hhigh : n ≤ 102 := by omega
    subst hd hchar
    interval_cases n <;> exact .inl rfl
  · obtain ⟨hlow, hhigh⟩ := hupper
    have hhigh : n ≤ 70 := by omega
    subst hd hchar
    interval_cases n <;> exact .inr rfl
  · omega

theorem digit?_of_isDigit (hradix : radix ≤ 16) (h : IsDigit radix c d) :
    digit? radix c = some d := by
  obtain ⟨hlt, h⟩ := h
  have hd : d < 16 := by omega
  rcases h with h | h <;> interval_cases d <;> cases h <;> exact if_pos hlt

theorem digit?_eq_some_iff (hradix : radix ≤ 16) : digit? radix c = some d ↔ IsDigit radix c d :=
  ⟨isDigit_of_digit? hradix, digit?_of_isDigit hradix⟩

theorem IsDigit.mem (h : IsDigit radix c d) : c ∈ "0123456789abcdefABCDEF".toList := by
  obtain ⟨-, h | h⟩ := h
  · have hmem : c ∈ "0123456789abcdef".toList := List.mem_of_getElem? h
    exact List.mem_append_left "ABCDEF".toList hmem
  · have hmem : c ∈ "0123456789ABCDEF".toList := List.mem_of_getElem? h
    have hsub : "0123456789ABCDEF".toList ⊆ "0123456789abcdefABCDEF".toList := by decide
    exact hsub hmem

theorem IsDigit.mem_decimal (h : IsDigit 10 c d) : c ∈ "0123456789".toList := by
  obtain ⟨hd, h⟩ := h
  rcases h with h | h <;> interval_cases d <;> cases h <;> decide

end Digit

section Group

variable {radix : Nat} {cs : List Char} {ds : List Nat}

theorem Group.exists_cons (h : Group radix cs ds) :
    ∃ c more d, cs = c :: more ∧ IsDigit radix c d := by
  cases h with
  | last hc => exact ⟨_, _, _, rfl, hc⟩
  | next hc => exact ⟨_, _, _, rfl, hc⟩
  | separated hc => exact ⟨_, _, _, rfl, hc⟩

theorem Group.cases_of_mem (h : Group radix cs ds) {c : Char} (hc : c ∈ cs) :
    c = '_' ∨ ∃ d, IsDigit radix c d := by
  induction h with
  | last hd => exact .inr ⟨_, List.mem_singleton.mp hc ▸ hd⟩
  | next hd _ ih =>
    rcases List.mem_cons.mp hc with rfl | hc
    · exact .inr ⟨_, hd⟩
    · exact ih hc
  | separated hd _ ih =>
    rcases List.mem_cons.mp hc with rfl | hc
    · exact .inr ⟨_, hd⟩
    · rcases List.mem_cons.mp hc with rfl | hc
      · exact .inl rfl
      · exact ih hc

theorem group?_of_group (hradix : radix ≤ 16) (h : Group radix cs ds) :
    group? radix cs = some ds := by
  induction h with
  | last hc => simp [group?, digit?_of_isDigit hradix hc]
  | @next c d cs ds hc hcs ih =>
    obtain ⟨c', more, d', rfl, hc'⟩ := hcs.exists_cons
    have hne : c' ≠ '_' := by
      rintro rfl
      exact absurd hc'.mem (by decide)
    rw [group?]
    · simp [digit?_of_isDigit hradix hc, ih]
    · exact List.cons_ne_nil c' more
    · exact fun rest heq => hne (List.cons.inj heq).1
  | separated hc _ ih => simp [group?, digit?_of_isDigit hradix hc, ih]

theorem group_of_group? (hradix : radix ≤ 16) (h : group? radix cs = some ds) :
    Group radix cs ds := by
  fun_induction group? radix cs generalizing ds with
  | case1 => cases h
  | case2 c =>
    obtain ⟨d, hd, rfl⟩ := Option.map_eq_some_iff.mp h
    exact .last (isDigit_of_digit? hradix hd)
  | case3 c rest ih =>
    simp only [Option.bind_eq_bind, Option.bind_eq_some_iff, Option.pure_def,
      Option.some.injEq] at h
    obtain ⟨d, hd, more, hmore, rfl⟩ := h
    exact .separated (isDigit_of_digit? hradix hd) (ih hmore)
  | case4 c rest _ _ ih =>
    simp only [Option.bind_eq_bind, Option.bind_eq_some_iff, Option.pure_def,
      Option.some.injEq] at h
    obtain ⟨d, hd, more, hmore, rfl⟩ := h
    exact .next (isDigit_of_digit? hradix hd) (ih hmore)

end Group

end Forth.Literal
