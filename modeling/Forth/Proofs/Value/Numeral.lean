import Forth.Number.Layout
import Forth.Proofs.Number.Shortest
import Forth.Proofs.Value.Number

/-! # Texts of digits, and how floats are set out

The digits of a number are a group of the grammar which says that number. Set out
with a point or with an exponent, they are a decimal of the value that was to be
written, in either layout of it.
-/

namespace Forth

namespace Literal

/-- Plain digits and what they say. There may be zeros in front. -/
structure Numeral (cs : List Char) (ds : List Nat) (n : Nat) : Prop where
  digits : List.Forall₂ (IsDigit 10) cs ds
  value : Nat.ofDigits 10 ds.reverse = n

section Numeral

variable {cs cs' : List Char} {ds ds' : List Nat} {m n : Nat}

theorem numeral_digitChar (h : n < 10) : Numeral [n.digitChar] [n] n := by
  refine ⟨.cons ⟨h, .inl ?_⟩ .nil, Nat.ofDigits_singleton⟩
  interval_cases n <;> rfl

theorem numeral_replicate_zero (k : Nat) :
    Numeral (List.replicate k '0') (List.replicate k 0) 0 := by
  induction k with
  | zero => exact ⟨.nil, rfl⟩
  | succ k ih =>
    refine ⟨.cons ⟨by decide, .inl rfl⟩ ih.digits, ?_⟩
    rw [List.replicate_succ, List.reverse_cons, Nat.ofDigits_append, ih.value, Nat.ofDigits_singleton,
      Nat.mul_zero]

theorem Numeral.length_eq (h : Numeral cs ds n) : cs.length = ds.length := h.digits.length_eq

theorem Numeral.append (h : Numeral cs ds m) (h' : Numeral cs' ds' n) :
    Numeral (cs ++ cs') (ds ++ ds') (m * 10 ^ ds'.length + n) := by
  refine ⟨List.rel_append h.digits h'.digits, ?_⟩
  rw [List.reverse_append, Nat.ofDigits_append, h.value, h'.value, List.length_reverse, Nat.add_comm,
    Nat.mul_comm]

theorem exists_numeral_toDigits (n : Nat) : ∃ ds, Numeral (Nat.toDigits 10 n) ds n := by
  induction n using Nat.strongRecOn with
  | ind n ih =>
    by_cases hn : n < 10
    · rw [Nat.toDigits_of_lt_base hn]
      exact ⟨[n], numeral_digitChar hn⟩
    · obtain ⟨ds, hds⟩ := ih (n / 10) (by omega)
      have hlast := hds.append (numeral_digitChar (Nat.mod_lt n (by decide : 0 < 10)))
      rw [List.length_singleton, Nat.pow_one, Nat.mul_comm, Nat.div_add_mod] at hlast
      rw [Nat.toDigits_of_base_le (by decide) (Nat.le_of_not_lt hn)]
      exact ⟨_, hlast⟩

theorem Numeral.leftpad (h : Numeral cs ds n) (k : Nat) :
    ∃ ds', Numeral (cs.leftpad k '0') ds' n := by
  have hpadded := (numeral_replicate_zero (k - cs.length)).append h
  rw [Nat.zero_mul, Nat.zero_add] at hpadded
  exact ⟨_, hpadded⟩

theorem Numeral.group (h : Numeral cs ds n) (hne : cs ≠ []) : Group 10 cs ds := by
  obtain ⟨hdigits, -⟩ := h
  induction hdigits with
  | nil => exact absurd rfl hne
  | @cons c d cs ds hc hcs ih =>
    cases cs with
    | nil =>
      cases hcs
      exact .last hc
    | cons c' cs => exact .next hc (ih (List.cons_ne_nil c' cs))

theorem ofDigits_concat (ds : List Nat) (d : Nat) :
    ofDigits 10 (ds ++ [d]) = 10 * ofDigits 10 ds + d :=
  List.foldl_append

theorem power_concat (ds : List Nat) (d : Nat) :
    power (ds ++ [d]) = if power ds < 65536 then 10 * power ds + d else power ds :=
  List.foldl_append

/-- An exponent is read exactly as long as it is not far beyond that of any float. -/
theorem Numeral.power_eq (h : Numeral cs ds n) (hn : n < 65536) : power ds = n := by
  obtain ⟨-, rfl⟩ := h
  rw [← ofDigits_eq] at hn ⊢
  induction ds using List.reverseRecOn with
  | nil => rfl
  | append_singleton ds d ih =>
    rw [ofDigits_concat] at hn ⊢
    have hds : power ds = ofDigits 10 ds := ih (by omega)
    rw [power_concat, if_pos (by omega), hds]

theorem Numeral.uncons {c : Char} (h : Numeral (c :: cs) ds n) :
    ∃ first m ds' k, Numeral [c] [first] m ∧ Numeral cs ds' k ∧ n = m * 10 ^ cs.length + k := by
  obtain ⟨hdigits, rfl⟩ := h
  obtain ⟨first, ds', hfirst, hrest, rfl⟩ := List.forall₂_cons_left_iff.mp hdigits
  refine ⟨first, first, ds', _, ⟨.cons hfirst .nil, Nat.ofDigits_singleton⟩, ⟨hrest, rfl⟩, ?_⟩
  rw [List.reverse_cons, Nat.ofDigits_append, Nat.ofDigits_singleton, List.length_reverse,
    hrest.length_eq, Nat.add_comm, Nat.mul_comm]

end Numeral

section Decimal

variable {sign whole part tail : List Char} {negative : Bool} {ws fs : List Nat} {m n : Nat}
  {e : Int}

theorem spellsDecimal_whole (hsign : Sign sign negative) (hwhole : Numeral whole ws m)
    (hne : whole ≠ []) (htail : Exponent tail e) :
    SpellsDecimal (sign ++ (whole ++ tail)) negative { digits := m, exponent := e } := by
  refine ⟨sign, whole, ws, [], [], tail, e, hsign, hwhole.group hne, .none, htail, ?_, ?_⟩
  · simp only [List.append_nil, List.append_assoc]
  · simp [hwhole.value]

theorem spellsDecimal_point (hsign : Sign sign negative) (hwhole : Numeral whole ws m)
    (hne : whole ≠ []) (hpart : Numeral part fs n) (hpart' : part ≠ []) (htail : Exponent tail e) :
    SpellsDecimal (sign ++ (whole ++ '.' :: (part ++ tail))) negative
      { digits := m * 10 ^ part.length + n, exponent := e - part.length } := by
  have hdigits := (hwhole.append hpart).value
  rw [← hpart.length_eq] at hdigits
  refine ⟨sign, whole, ws, '.' :: part, fs, tail, e, hsign, hwhole.group hne,
    .some (hpart.group hpart'), htail, ?_, ?_⟩
  · simp only [List.append_assoc, List.cons_append]
  · rw [hdigits, hpart.length_eq]

theorem Sign.mem_signs (h : Sign sign negative) {c : Char} (hc : c ∈ sign) : c ∈ ['+', '-'] := by
  cases h with
  | none => cases hc
  | plus => exact List.mem_append_left ['-'] hc
  | minus => exact List.mem_cons_of_mem '+' hc

/-- What has a point or an exponent is an integer in no radix. -/
theorem not_spellsInteger_of_mem {cs : List Char} {d : Decimal}
    (h : SpellsDecimal cs negative d) (hmem : '.' ∈ cs ∨ 'e' ∈ cs) (radix : Nat) (k : Int) :
    ¬SpellsInteger radix cs k := by
  intro hinteger
  by_cases hradix : radix = 10
  · subst hradix
    obtain ⟨sign, _, mark, group, ds, hsign, hmark, hgroup, rfl, -⟩ := hinteger
    cases hmark
    have hnot {x : Char} (hsigns : x ∉ ['+', '-']) (hgroup' : x ∉ "_0123456789".toList) :
        x ∉ sign ++ [] ++ group := by
      intro hx
      rw [List.append_nil] at hx
      rcases List.mem_append.mp hx with hx | hx
      · exact hsigns (hsign.mem_signs hx)
      · exact hgroup.ne_of_mem hx hgroup' rfl
    rcases hmem with hmem | hmem
    · exact hnot (by decide) (by decide) hmem
    · exact hnot (by decide) (by decide) hmem
  · exact not_spellsDecimal_of_marked hradix hinteger h

end Decimal

end Literal

namespace Layout

open Literal

variable {l : Layout} {d : Decimal} {sign : List Char} {negative : Bool}

theorem spellsDecimal_pointZero (hsign : Sign sign negative) (n : Nat) :
    SpellsDecimal (sign ++ (Nat.toDigits 10 n ++ ['.', '0'])) negative
      { digits := n * 10, exponent := -1 } := by
  obtain ⟨ws, hwhole⟩ := exists_numeral_toDigits n
  exact spellsDecimal_point hsign hwhole Nat.toDigits_ne_nil (numeral_replicate_zero 1)
    (List.cons_ne_nil _ _) .none

/-- The digits behind the point, with zeros in front of them where there are too few. -/
theorem length_leftpad_toDigits {n places : Nat} (hplaces : 0 < places)
    (hn : n < Decimal.tenTo places) :
    ((Nat.toDigits 10 n).leftpad places '0').length = places := by
  rw [List.length_leftpad]
  exact Nat.max_eq_left ((Nat.length_toDigits_le_iff (by decide) hplaces).mpr hn)

theorem spellsDecimal_places (hsign : Sign sign negative) (digits e : Nat) :
    SpellsDecimal (sign ++ l.positional { digits, exponent := .negSucc e }) negative
      { digits, exponent := .negSucc e } := by
  obtain ⟨ws, hwhole⟩ := exists_numeral_toDigits (digits / Decimal.tenTo (e + 1))
  obtain ⟨fs, hpart⟩ := exists_numeral_toDigits (digits % Decimal.tenTo (e + 1))
  obtain ⟨fs, hpart⟩ := hpart.leftpad (e + 1)
  have hlength := length_leftpad_toDigits (Nat.succ_pos e)
    (Nat.mod_lt digits (Decimal.tenTo_pos (e + 1)))
  have hne : (Nat.toDigits 10 (digits % Decimal.tenTo (e + 1))).leftpad (e + 1) '0' ≠ [] := by
    rw [← List.length_pos_iff, hlength]
    exact Nat.succ_pos e
  have hread := spellsDecimal_point hsign hwhole Nat.toDigits_ne_nil hpart hne .none
  have hdigits : digits / Decimal.tenTo (e + 1) * 10 ^ (e + 1) + digits % Decimal.tenTo (e + 1) =
      digits := Nat.div_add_mod' digits (Decimal.tenTo (e + 1))
  have hexponent : (0 : Int) - (e + 1 : Nat) = .negSucc e := by
    rw [Int.zero_sub]
    rfl
  rw [hlength, hdigits, hexponent, List.append_nil] at hread
  exact hread

theorem spellsDecimal_positional (hl : l.pointZero = true) (hsign : Sign sign negative) :
    ∃ d', SpellsDecimal (sign ++ l.positional d) negative d' ∧ d'.value = d.value := by
  obtain ⟨digits, e | e⟩ := d
  · have hread := spellsDecimal_pointZero hsign (digits * Decimal.tenTo e)
    refine ⟨{ digits := digits * Decimal.tenTo e * 10, exponent := -1 }, ?_, ?_⟩
    · simpa only [positional, hl, if_true] using hread
    · simp [Decimal.value]
  · exact ⟨_, spellsDecimal_places hsign digits e, rfl⟩

/-- With an exponent, the digits have one in front of the point and so many behind it. -/
def places (d : Decimal) : Nat := (Nat.toDigits 10 d.digits).length - 1

theorem spellsDecimal_scientific {n : Nat} {ps : List Nat} (hsign : Sign sign negative)
    (hpower : d.exponent + places d = n) (hps : Numeral (Nat.toDigits 10 n) ps n) :
    SpellsDecimal (sign ++ scientific d) negative
      { digits := d.digits, exponent := power ps - places d } := by
  rw [places] at hpower ⊢
  obtain ⟨ds, hds⟩ := exists_numeral_toDigits d.digits
  have hne : Nat.toDigits 10 d.digits ≠ [] := Nat.toDigits_ne_nil
  have htail : Exponent ('e' :: (toString (n : Int)).toList) (power ps) := by
    have htext : (toString (n : Int)).toList = Nat.toDigits 10 n := Nat.toList_repr
    rw [htext]
    exact .some (.inl rfl) .none Nat.toDigits_ne_nil hps.digits
  rw [scientific]
  simp only [hpower]
  generalize Nat.toDigits 10 d.digits = cs at hds hne ⊢
  obtain ⟨c, rest, rfl⟩ := List.exists_cons_of_ne_nil hne
  cases rest with
  | nil => simpa using spellsDecimal_whole hsign hds hne htail
  | cons c' rest =>
    obtain ⟨first, m, fs, k, hfirst, hrest, hdigits⟩ := hds.uncons
    have hread := spellsDecimal_point hsign hfirst (List.cons_ne_nil _ _) hrest
      (List.cons_ne_nil _ _) htail
    rw [← hdigits] at hread
    simpa using hread

theorem tenTo_places_le (hdigits : 0 < d.digits) : 10 ^ places d ≤ d.digits := by
  rcases Nat.eq_zero_or_pos (places d) with hzero | hpos
  · rw [hzero]
    exact hdigits
  · refine Nat.le_of_not_lt fun hlt => ?_
    have hle := (Nat.length_toDigits_le_iff (by decide) hpos).mpr hlt
    rw [places] at hle hpos
    omega

theorem tenTo_le_value {n : Nat} (hdigits : 0 < d.digits) (hpower : d.exponent + places d = n) :
    10 ^ n ≤ d.value := by
  have hlead : (10 : ℚ) ^ places d ≤ d.digits := by
    exact_mod_cast tenTo_places_le hdigits
  rw [Decimal.value, ← zpow_natCast, ← hpower, zpow_add₀ (by decide), mul_comm, zpow_natCast]
  exact mul_le_mul_of_nonneg_right hlead (by positivity)

/-- The exponent that is read is the one that was written: a finite float has no larger one. -/
theorem value_scientific {n : Nat} {ps : List Nat} (hfinite : d.toBits < Binary64.infinity)
    (hpower : d.exponent + places d = n) (hps : Numeral (Nat.toDigits 10 n) ps n) :
    ({ digits := d.digits, exponent := power ps - places d } : Decimal).value = d.value := by
  rcases Nat.eq_zero_or_pos d.digits with hzero | hpos
  · simp [Decimal.value, hzero]
  · have hn := Decimal.lt_of_tenTo_le_value hfinite (tenTo_le_value hpos hpower)
    rw [hps.power_eq (hn.trans (by decide)), ← hpower, Int.add_sub_cancel]

/-- Set out in either way, the digits of a finite float are a decimal that denotes it. -/
theorem spellsDecimal_decimal (hl : l.pointZero = true) (hsign : Sign sign negative)
    (hfinite : d.toBits < Binary64.infinity) :
    ∃ d', SpellsDecimal (sign ++ l.decimal d) negative d' ∧ d'.toBits = d.toBits := by
  have hpositional : ∃ d', SpellsDecimal (sign ++ l.positional d) negative d' ∧
      d'.toBits = d.toBits := by
    obtain ⟨d', hd', hvalue⟩ := spellsDecimal_positional hl hsign
    exact ⟨d', hd', Decimal.toBits_congr hvalue⟩
  rw [decimal]
  split
  · exact hpositional
  · split
    · rename_i hlong
      have hlength : 0 < (Nat.toDigits 10 d.digits).length := Nat.length_toDigits_pos
      rw [Decimal.digitCount] at hlong
      have hpower : 0 ≤ d.exponent + places d := by
        rw [places]
        omega
      obtain ⟨n, hn⟩ := Int.eq_ofNat_of_zero_le hpower
      obtain ⟨ps, hps⟩ := exists_numeral_toDigits n
      exact ⟨_, spellsDecimal_scientific hsign hn hps,
        Decimal.toBits_congr (value_scientific hfinite hn hps)⟩
    · exact hpositional

/-- A float never looks like an integer. -/
theorem mem_decimal (hl : l.pointZero = true) (d : Decimal) :
    '.' ∈ l.decimal d ∨ 'e' ∈ l.decimal d := by
  have hpositional : '.' ∈ l.positional d := by
    rw [positional]
    split
    · simp [hl]
    · simp
  rw [decimal]
  split
  · exact .inl hpositional
  · split
    · exact .inr (by simp [scientific])
    · exact .inl hpositional

end Layout

end Forth
