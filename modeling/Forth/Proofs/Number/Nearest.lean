import Forth.Number.Decimal
import Mathlib.Algebra.Order.Ring.Nat

/-! # The pattern nearest to a quotient

The nearest pattern depends on the quotient only, not on how it is written. A
pattern is the one nearest to its own magnitude. A quotient whose nearest pattern
is finite is bounded.
-/

namespace Forth.Binary64

theorem divNearest_mul_left {c : Nat} (hc : 0 < c) (num den : Nat) :
    divNearest (c * num) (c * den) = divNearest num den := by
  have htwice : 2 * (c * (num % den)) = c * (2 * (num % den)) := Nat.mul_left_comm ..
  simp only [divNearest, Nat.mul_div_mul_left _ _ hc, Nat.mul_mod_mul_left, htwice,
    Nat.mul_lt_mul_left hc, beq_iff_eq, Bool.or_eq_true, Bool.and_eq_true, decide_eq_true_eq,
    Nat.mul_right_inj hc.ne']

theorem divNearest_mul_self {den : Nat} (hden : 0 < den) (n : Nat) :
    divNearest (n * den) den = n := by
  simp [divNearest, Nat.mul_div_cancel n hden, hden]

theorem nearest_mul_left {c : Nat} (hc : 0 < c) (num den : Nat) :
    nearest (c * num) (c * den) = nearest num den := by
  simp only [nearest, Nat.mul_div_mul_left _ _ hc, Nat.shiftLeft_eq, Nat.mul_assoc,
    divNearest_mul_left hc]

/-- Equal quotients have the same nearest pattern. -/
theorem nearest_congr {num den num' den' : Nat} (hden : 0 < den) (hden' : 0 < den')
    (h : num * den' = num' * den) : nearest num den = nearest num' den' := by
  rw [← nearest_mul_left hden' num den, ← nearest_mul_left hden num' den', Nat.mul_comm den' num, h,
    Nat.mul_comm num' den, Nat.mul_comm den' den]

theorem log2_significand {m : Nat} (hm : m < leadingBit) (e : Nat) :
    ((leadingBit + m) * 2 ^ e).log2 = 52 + e := by
  have hbit : leadingBit = 2 ^ 52 := by decide
  rw [hbit] at hm ⊢
  have hpos : 0 < (2 ^ 52 + m) * 2 ^ e := Nat.mul_pos (by omega) (Nat.two_pow_pos e)
  rw [Nat.log2_eq_iff hpos.ne', Nat.pow_add, Nat.add_right_comm, Nat.pow_add]
  exact ⟨Nat.mul_le_mul_right _ (by omega), Nat.mul_lt_mul_of_pos_right (by omega) (Nat.two_pow_pos e)⟩

theorem nearest_significand {m : Nat} (hm : m < leadingBit) {e den : Nat} (hden : 0 < den) :
    nearest ((leadingBit + m) * 2 ^ e * den) den =
      min infinity (e * leadingBit + (leadingBit + m)) := by
  have hexponent : 52 + e + 1 - 53 = e := by omega
  have hscale : (leadingBit + m) * 2 ^ e * den = (leadingBit + m) * (den * 2 ^ e) := by
    rw [Nat.mul_assoc, Nat.mul_comm (2 ^ e)]
  rw [nearest, Nat.mul_div_cancel _ hden, log2_significand hm, hexponent, Nat.shiftLeft_eq, hscale,
    divNearest_mul_self (Nat.mul_pos hden (Nat.two_pow_pos e))]

theorem nearest_small {n : Nat} (hn : n < leadingBit) {den : Nat} (hden : 0 < den) :
    nearest (n * den) den = n := by
  have hexponent : n.log2 + 1 - 53 = 0 := by
    rcases Nat.eq_zero_or_pos n with rfl | hpos
    · rfl
    · have hbit : n < 2 ^ 52 := hn
      have hlt := (Nat.log2_lt hpos.ne').mpr hbit
      omega
  have hinfinity : n ≤ infinity := Nat.le_of_lt (Nat.lt_of_lt_of_le hn (by decide))
  rw [nearest, Nat.mul_div_cancel _ hden, hexponent, Nat.shiftLeft_zero, divNearest_mul_self hden,
    Nat.zero_mul, Nat.zero_add, Nat.min_eq_right hinfinity]

/-- Each pattern lies nearest to the magnitude that it stands for. -/
theorem nearest_units {bits : Nat} (hbits : bits ≤ infinity) {den : Nat} (hden : 0 < den) :
    nearest (units bits * den) den = bits := by
  by_cases hsmall : bits < leadingBit
  · rw [units, if_pos hsmall, nearest_small hsmall hden]
  · have hbit : 0 < leadingBit := by decide
    have hlead : 0 < bits / leadingBit := Nat.div_pos (Nat.le_of_not_lt hsmall) hbit
    have hsplit : (bits / leadingBit - 1) * leadingBit + (leadingBit + bits % leadingBit) = bits := by
      rw [← Nat.add_assoc, ← Nat.succ_mul, Nat.succ_eq_add_one, Nat.sub_add_cancel hlead,
        Nat.mul_comm, Nat.div_add_mod]
    rw [units, if_neg hsmall, Nat.shiftLeft_eq, nearest_significand (Nat.mod_lt bits hbit) hden,
      hsplit, Nat.min_eq_right hbits]

/-- The bound is generous: nothing depends on how large it is. -/
theorem log2_lt_of_nearest_lt {num den : Nat} (h : nearest num den < infinity) :
    (num / den).log2 < 2100 := by
  refine Nat.lt_of_not_le fun hle => ?_
  have hexponent : 2047 ≤ (num / den).log2 + 1 - 53 := by omega
  have hinfinity : infinity = 2047 * leadingBit := by decide
  have hle : infinity ≤ ((num / den).log2 + 1 - 53) * leadingBit +
      divNearest num (den <<< ((num / den).log2 + 1 - 53)) := by
    rw [hinfinity]
    exact Nat.le_add_right_of_le (Nat.mul_le_mul_right _ hexponent)
  rw [nearest, Nat.min_eq_left hle] at h
  exact Nat.lt_irrefl _ h

end Forth.Binary64

namespace Forth.Decimal

open Binary64

theorem tenTo_pos (e : Nat) : 0 < tenTo e := Nat.pow_pos (by decide)

theorem toBits_eq_of_five_pow {d : Decimal} {bits e : Nat} (hbits : bits ≤ infinity)
    (hd : d.toBits = nearest (units bits * Nat.pow 5 e * one) (tenTo e)) (hone : one = 1 <<< e) :
    d.toBits = bits := by
  have hten : Nat.pow 5 e * 2 ^ e = tenTo e := (Nat.mul_pow 5 2 e).symm
  rw [hd, hone, Nat.one_shiftLeft, Nat.mul_assoc, hten, nearest_units hbits (tenTo_pos e)]

theorem toBits_exact {bits : Nat} (hbits : bits ≤ infinity) : (exact bits).toBits = bits := by
  have hone : one = 1 <<< 1074 := rfl
  have hexact : (exact bits).toBits =
      nearest (units bits * Nat.pow 5 1074 * one) (tenTo 1074) := rfl
  -- nothing below computes the power
  generalize 1074 = e at hone hexact
  exact toBits_eq_of_five_pow hbits hexact hone

end Forth.Decimal
