import Forth.Proofs.Text.Utf8

/-! # Texts in the order of their bytes

UTF-8 keeps the order of characters. The first byte tells how many follow, and
the more follow the greater it is; of two sequences that are equally long, the
bytes are the digits of the code points, the highest first. So texts are ordered
as their bytes are, and no text has more characters than bytes.
-/

namespace Forth.Utf8

def bytes (text : String) : List UInt8 := text.toUTF8.data.toList

theorem bytes_eq_flatMap (text : String) :
    bytes text = text.toList.flatMap String.utf8EncodeChar :=
  toUTF8_data_toList text

/-- The first bytes come before the second ones, whatever follows either of them. -/
def Before (a b : List UInt8) : Prop := ∀ xs ys, a ++ xs < b ++ ys

theorem before_of_head_lt {x y : UInt8} (h : x < y) (a b : List UInt8) :
    Before (x :: a) (y :: b) :=
  fun _ _ => List.cons_lt_cons_iff.mpr (.inl h)

theorem Before.append {a b : List UInt8} (h : Before a b) (c d : List UInt8) :
    Before (a ++ c) (b ++ d) := by
  intro xs ys
  rw [List.append_assoc, List.append_assoc]
  exact h _ _

theorem Before.append_left {a b : List UInt8} (h : Before a b) (c : List UInt8) :
    Before (c ++ a) (c ++ b) := by
  intro xs ys
  rw [List.append_assoc, List.append_assoc]
  exact List.append_left_lt (h xs ys)

theorem ofNat_lt_ofNat {m n : Nat} (hmn : m < n) (hn : n < 256) :
    UInt8.ofNat m < UInt8.ofNat n := by
  rw [UInt8.lt_iff_toNat_lt, UInt8.toNat_ofNat', UInt8.toNat_ofNat',
    Nat.mod_eq_of_lt (Nat.lt_trans hmn hn), Nat.mod_eq_of_lt hn]
  exact hmn

/-- A first byte, which is `mark` and the highest digit, and the digits behind it. -/
def sequenceOf (mark : Nat) : Nat → Nat → List UInt8
  | 0, n => [UInt8.ofNat (n + mark)]
  | more + 1, n => sequenceOf mark more (n / 64) ++ [UInt8.ofNat (n % 64 + 0x80)]

theorem sequenceOf_eq_cons (mark more n : Nat) :
    ∃ rest, sequenceOf mark more n = UInt8.ofNat (n / 64 ^ more + mark) :: rest := by
  induction more generalizing n with
  | zero => exact ⟨[], by simp [sequenceOf]⟩
  | succ more ih =>
    obtain ⟨rest, hrest⟩ := ih (n / 64)
    refine ⟨rest ++ [UInt8.ofNat (n % 64 + 0x80)], ?_⟩
    rw [sequenceOf, hrest, Nat.div_div_eq_div_mul, ← Nat.pow_succ', List.cons_append]

theorem before_sequenceOf {mark more m n : Nat} (hmn : m < n) (hn : n / 64 ^ more + mark < 256) :
    Before (sequenceOf mark more m) (sequenceOf mark more n) := by
  induction more generalizing m n with
  | zero =>
    have hlast : UInt8.ofNat (m + mark) < UInt8.ofNat (n + mark) :=
      ofNat_lt_ofNat (by omega) (by simpa using hn)
    exact before_of_head_lt hlast [] []
  | succ more ih =>
    rw [sequenceOf, sequenceOf]
    -- the last digit decides only where all others are equal
    rcases Nat.lt_or_eq_of_le (Nat.div_le_div_right (c := 64) (Nat.le_of_lt hmn)) with hlt | heq
    · have hhigh : n / 64 / 64 ^ more + mark < 256 := by
        rwa [Nat.div_div_eq_div_mul, ← Nat.pow_succ']
      exact (ih hlt hhigh).append _ _
    · have hlast : UInt8.ofNat (m % 64 + 0x80) < UInt8.ofNat (n % 64 + 0x80) :=
        ofNat_lt_ofNat (by omega) (by omega)
      rw [heq]
      exact (before_of_head_lt hlast [] []).append_left _

/-- The mark in the first byte of a code point. -/
def markOf (n : Nat) : Nat :=
  if n ≤ 0x7F then 0 else if n ≤ 0x7FF then 0xC0 else if n ≤ 0xFFFF then 0xE0 else 0xF0

/-- How many bytes follow the first one of a code point. -/
def moreOf (n : Nat) : Nat :=
  if n ≤ 0x7F then 0 else if n ≤ 0x7FF then 1 else if n ≤ 0xFFFF then 2 else 3

theorem codePoint_lt (c : Char) : c.val.toNat < 0x110000 := by
  have hvalid : c.val.toNat < 0xD800 ∨ 0xDFFF < c.val.toNat ∧ c.val.toNat < 0x110000 := c.valid
  omega

theorem utf8EncodeChar_eq_sequenceOf (c : Char) :
    String.utf8EncodeChar c = sequenceOf (markOf c.val.toNat) (moreOf c.val.toNat) c.val.toNat := by
  have hc := codePoint_lt c
  rw [String.utf8EncodeChar, markOf, moreOf]
  generalize c.val.toNat = n at hc
  split_ifs
  · rfl
  · rw [Nat.mod_eq_of_lt (show n / 64 < 0x20 by omega)]
    rfl
  · rw [Nat.mod_eq_of_lt (show n / 4096 < 0x10 by omega)]
    simp [sequenceOf, Nat.div_div_eq_div_mul]
  · rw [Nat.mod_eq_of_lt (show n / 262144 < 0x08 by omega)]
    simp [sequenceOf, Nat.div_div_eq_div_mul]

theorem before_utf8EncodeChar {c d : Char} (h : c < d) :
    Before (String.utf8EncodeChar c) (String.utf8EncodeChar d) := by
  have hcd : c.val.toNat < d.val.toNat := UInt32.lt_iff_toNat_lt.mp h
  have hd := codePoint_lt d
  rw [utf8EncodeChar_eq_sequenceOf, utf8EncodeChar_eq_sequenceOf]
  generalize c.val.toNat = m at hcd
  generalize d.val.toNat = n at hcd hd
  have hfirst : n / 64 ^ moreOf n + markOf n < 256 := by
    simp only [moreOf, markOf]
    split_ifs <;> omega
  -- either both take equally many bytes, or the first bytes tell them apart
  have hcases : markOf m = markOf n ∧ moreOf m = moreOf n ∨
      m / 64 ^ moreOf m + markOf m < n / 64 ^ moreOf n + markOf n := by
    simp only [moreOf, markOf]
    split_ifs <;> omega
  rcases hcases with ⟨hmark, hmore⟩ | hlt
  · rw [hmark, hmore]
    exact before_sequenceOf hcd hfirst
  · obtain ⟨xs, hxs⟩ := sequenceOf_eq_cons (markOf m) (moreOf m) m
    obtain ⟨ys, hys⟩ := sequenceOf_eq_cons (markOf n) (moreOf n) n
    rw [hxs, hys]
    exact before_of_head_lt (ofNat_lt_ofNat hlt hfirst) xs ys

theorem flatMap_utf8EncodeChar_lt {a b : List Char} (h : a < b) :
    a.flatMap String.utf8EncodeChar < b.flatMap String.utf8EncodeChar := by
  induction h with
  | @nil c rest =>
    obtain ⟨ys, hys⟩ := sequenceOf_eq_cons (markOf c.val.toNat) (moreOf c.val.toNat) c.val.toNat
    rw [List.flatMap_cons, utf8EncodeChar_eq_sequenceOf, hys]
    exact List.nil_lt_cons _ _
  | rel hcd => exact before_utf8EncodeChar hcd _ _
  | cons _ ih => exact List.append_left_lt ih

/-- Texts are in the order of their bytes. -/
theorem bytes_lt_iff {a b : String} : bytes a < bytes b ↔ a < b := by
  have hlt {a b : String} (h : a < b) : bytes a < bytes b := by
    rw [bytes_eq_flatMap, bytes_eq_flatMap]
    exact flatMap_utf8EncodeChar_lt h
  refine ⟨fun h => ?_, hlt⟩
  rw [← String.not_le]
  intro hle
  by_cases hba : b < a
  · exact List.lt_asymm h (hlt hba)
  · rw [String.le_antisymm (String.not_lt.mp hba) hle] at h
    exact List.lt_irrefl _ h

theorem bytes_le_iff {a b : String} : bytes a ≤ bytes b ↔ a ≤ b := by
  rw [← List.not_lt, ← String.not_lt, bytes_lt_iff]

theorem length_bytes (text : String) : (bytes text).length = text.utf8ByteSize := rfl

/-- Every character takes at least one byte. -/
theorem length_le_length_bytes (text : String) : text.length ≤ (bytes text).length := by
  rw [length_bytes]
  induction text using String.push_induction with
  | empty => exact Nat.zero_le _
  | push text c ih =>
    rw [String.length_push, String.utf8ByteSize_push]
    have hpos : 0 < c.utf8Size := c.utf8Size_pos
    omega

theorem le_length_bytes_replicate (n : Nat) (c : Char) :
    n ≤ (bytes (String.ofList (List.replicate n c))).length := by
  have hle := length_le_length_bytes (String.ofList (List.replicate n c))
  rwa [String.length_ofList, List.length_replicate] at hle

theorem length_bytes_append (text more : List Char) :
    (bytes (String.ofList (text ++ more))).length =
      (bytes (String.ofList text)).length + (bytes (String.ofList more)).length := by
  simp [bytes_eq_flatMap]

end Forth.Utf8
