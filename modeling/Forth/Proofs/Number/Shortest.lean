import Forth.Proofs.Number.Nearest
import Mathlib.Algebra.Order.Field.Power
import Mathlib.Data.Rat.Floor
import Mathlib.Tactic.Ring

/-! # The decimals of a float

What a decimal denotes depends on its value only, so zeros at the end of the
digits make no difference. Whatever grid the digits of a float are found on, they
denote that float.
-/

namespace Forth.Decimal

open Binary64

def value (d : Decimal) : ℚ := d.digits * 10 ^ d.exponent

section Value

variable {d d' : Decimal}

@[simp] theorem cast_tenTo (e : Nat) : (tenTo e : ℚ) = 10 ^ e := by
  simp [tenTo]

/-- A decimal denotes the float nearest to its value, a quotient of naturals. -/
theorem exists_quotient (d : Decimal) :
    ∃ num den : Nat, 0 < den ∧ d.value = num / den ∧ d.toBits = nearest (num * one) den := by
  obtain ⟨digits, e | e⟩ := d
  · refine ⟨digits * tenTo e, 1, Nat.one_pos, ?_, rfl⟩
    simp [value]
  · refine ⟨digits, tenTo (e + 1), tenTo_pos _, ?_, rfl⟩
    rw [value, cast_tenTo, zpow_negSucc, div_eq_mul_inv]

theorem toBits_eq_of_quotient {num den : Nat} (hden : 0 < den) (h : d.value = num / den) :
    d.toBits = nearest (num * one) den := by
  obtain ⟨num', den', hden', hvalue, hbits⟩ := d.exists_quotient
  have hcross : num' * den = num * den' := by
    have hne : (den : ℚ) ≠ 0 := Nat.cast_ne_zero.mpr hden.ne'
    have hne' : (den' : ℚ) ≠ 0 := Nat.cast_ne_zero.mpr hden'.ne'
    rw [hvalue, div_eq_div_iff hne' hne] at h
    exact_mod_cast h
  rw [hbits]
  refine nearest_congr hden' hden ?_
  rw [Nat.mul_right_comm, hcross, Nat.mul_right_comm]

theorem toBits_congr (h : d.value = d'.value) : d.toBits = d'.toBits := by
  obtain ⟨num, den, hden, hvalue, hbits⟩ := d'.exists_quotient
  rw [toBits_eq_of_quotient hden (h.trans hvalue), hbits]

/-- A decimal with a finite float is far from the powers of ten that no reader gets to. -/
theorem lt_of_tenTo_le_value {n : Nat} (hfinite : d.toBits < infinity) (h : 10 ^ n ≤ d.value) :
    n < 2100 := by
  obtain ⟨num, den, hden, hvalue, hbits⟩ := d.exists_quotient
  rw [hbits] at hfinite
  have hle : 10 ^ n * den ≤ num := by
    rw [hvalue, le_div_iff₀ (Nat.cast_pos.mpr hden)] at h
    exact_mod_cast h
  have hone : num ≤ num * one := Nat.le_mul_of_pos_right _ (by decide)
  have hquotient : 10 ^ n ≤ num * one / den :=
    (Nat.le_div_iff_mul_le hden).mpr (hle.trans hone)
  have htwo : 2 ^ n ≤ num * one / den := (Nat.pow_le_pow_left (by decide) n).trans hquotient
  have hpos : num * one / den ≠ 0 := ((Nat.two_pow_pos n).trans_le htwo).ne'
  exact ((Nat.le_log2 hpos).mpr htwo).trans_lt (log2_lt_of_nearest_lt hfinite)

end Value

theorem value_dropZeros (bound : Nat) (d : Decimal) : (dropZeros bound d).value = d.value := by
  fun_induction dropZeros bound d with
  | case1 d => rfl
  | case2 bound d hzero ih =>
    have hdigits : d.digits / 10 * 10 = d.digits := Nat.div_mul_cancel (Nat.dvd_of_mod_eq_zero hzero)
    rw [ih, value, value, zpow_add_one₀ (by decide)]
    conv_rhs => rw [← hdigits]
    push_cast
    ring
  | case3 bound d hzero => rfl

theorem toBits_of_onGrid {bits : Nat} {exponent : Int} {d : Decimal}
    (h : onGrid bits exponent = some d) : d.toBits = bits := by
  simp only [onGrid] at h
  split at h
  · rename_i hbelow habove
    split at h <;> cases h
    · exact of_decide_eq_true hbelow
    · exact of_decide_eq_true habove
  · rename_i hbelow _
    cases h
    exact of_decide_eq_true hbelow
  · rename_i _ habove
    cases h
    exact of_decide_eq_true habove
  · cases h

/-- The digits of a float denote it. -/
theorem toBits_shortest {bits : Nat} (hbits : bits ≤ infinity) : (shortest bits).toBits = bits := by
  rw [shortest]
  generalize hfound : List.findSome? _ _ = found
  rw [toBits_congr (value_dropZeros _ _)]
  cases found with
  | none => exact toBits_exact hbits
  | some d =>
    obtain ⟨n, -, hgrid⟩ := List.exists_of_findSome?_eq_some hfound
    exact toBits_of_onGrid hgrid

end Forth.Decimal
