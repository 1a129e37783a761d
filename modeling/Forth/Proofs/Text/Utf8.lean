import Forth.Source.Reader
import Mathlib.Tactic.IntervalCases
import Mathlib.Tactic.SplitIfs

/-! # Reading bytes line by line

A newline continues no character, so the decoder is at rest behind it and lines
can be decoded one by one. In the other direction nothing but a newline is read
as one, so the lines of the bytes are those of the text. What was encoded is
read back.
-/

namespace Forth.Utf8

open Reading (newline)

/-- Of a character that was begun, the next byte is at least `0x80`, and its bytes come to no code
point below `0x80`. -/
structure Pending.Long (p : Pending) : Prop where
  low : 0x80 ≤ p.low.toNat
  next : 2 ≤ p.code * 64 + (p.low.toNat - 0x80)
  last : p.more = 1 → 2 ≤ p.code

/-- Which byte begins what, in numbers. -/
theorem lead_eq (b : UInt8) :
    lead b =
      if b.toNat < 0x80 then .inl (Char.ofNat b.toNat)
      else if 0xC2 ≤ b.toNat ∧ b.toNat ≤ 0xDF then .inr { code := b.toNat - 0xC0, more := 1 }
      else if b.toNat = 0xE0 then .inr { code := 0, more := 2, low := 0xA0 }
      else if b.toNat = 0xED then .inr { code := 0xD, more := 2, high := 0x9F }
      else if 0xE1 ≤ b.toNat ∧ b.toNat ≤ 0xEF then .inr { code := b.toNat - 0xE0, more := 2 }
      else if b.toNat = 0xF0 then .inr { code := 0, more := 3, low := 0x90 }
      else if b.toNat = 0xF4 then .inr { code := 4, more := 3, high := 0x8F }
      else if 0xF1 ≤ b.toNat ∧ b.toNat ≤ 0xF3 then .inr { code := b.toNat - 0xF0, more := 3 }
      else .inl replacement := by
  simp only [lead, Bool.and_eq_true, decide_eq_true_eq, UInt8.le_iff_toNat_le,
    UInt8.lt_iff_toNat_lt, ← UInt8.toNat_inj, UInt8.reduceToNat]

theorem long_of_lead {b : UInt8} {p : Pending} (h : lead b = .inr p) : p.Long := by
  rw [lead_eq] at h
  split_ifs at h with _ h2 h3 h4 h5 h6 h7 h8
  all_goals
    simp only [Sum.inr.injEq] at h
    subst h
  · exact ⟨Nat.le_refl 0x80, by simp only; omega, fun _ => by simp only; omega⟩
  · exact ⟨by decide, by decide, nofun⟩
  · exact ⟨by decide, by decide, nofun⟩
  · exact ⟨Nat.le_refl 0x80, by simp only; omega, nofun⟩
  · exact ⟨by decide, by decide, nofun⟩
  · exact ⟨by decide, by decide, nofun⟩
  · exact ⟨Nat.le_refl 0x80, by simp only; omega, nofun⟩

theorem ofNat_ne_newline {n : Nat} (h : n ≠ 10) : Char.ofNat n ≠ '\n' := by
  intro hn
  by_cases hvalid : n.isValidChar
  · rw [Char.ofNat, dif_pos hvalid] at hn
    exact h (congrArg Char.toNat hn)
  · rw [Char.ofNat, dif_neg hvalid] at hn
    exact absurd hn (by decide)

theorem ne_newline_of_lead {b : UInt8} {c : Char} (hb : b ≠ newline) (h : lead b = .inl c) :
    c ≠ '\n' := by
  rw [lead_eq] at h
  split_ifs at h
  · cases h
    exact ofNat_ne_newline fun hn => hb (UInt8.toNat_inj.mp hn)
  · cases h
    decide

theorem lead_newline : lead newline = .inl '\n' := rfl

namespace Decoder

def Sound (d : Decoder) : Prop := ∀ p ∈ d.pending, p.Long

/-- The decoder in which other characters were read before. -/
def onto (d : Decoder) (read : List Char) : Decoder := { d with read := d.read ++ read }

theorem sound_begin (d : Decoder) (b : UInt8) : (d.begin b).Sound := by
  intro p hp
  rw [begin] at hp
  cases hlead : lead b with
  | inl c =>
    rw [hlead] at hp
    cases hp
  | inr q =>
    rw [hlead] at hp
    cases hp
    exact long_of_lead hlead

theorem Sound.step {d : Decoder} (hd : d.Sound) (b : UInt8) : (d.step b).Sound := by
  rw [Decoder.step]
  split
  case h_1 => exact sound_begin _ b
  case h_2 p hp =>
    have hlong := hd p hp
    split_ifs with hrange hmore
    · exact nofun
    · intro q hq
      have hlow : p.low.toNat ≤ b.toNat := by
        simp only [Bool.and_eq_true, decide_eq_true_eq, UInt8.le_iff_toNat_le] at hrange
        exact hrange.1
      have hcode : 2 ≤ p.code * 64 + (b.toNat - 0x80) := by
        have hnext := hlong.next
        omega
      obtain rfl : _ = q := Option.some.inj hq
      refine ⟨Nat.le_refl 0x80, ?_, fun _ => hcode⟩
      simp only
      omega
    · exact sound_begin _ b

theorem Sound.foldl {d : Decoder} (hd : d.Sound) (bytes : List UInt8) :
    (bytes.foldl Decoder.step d).Sound := by
  induction bytes generalizing d with
  | nil => exact hd
  | cons b bytes ih => exact ih (hd.step b)

theorem begin_onto (d : Decoder) (read : List Char) (b : UInt8) :
    (d.onto read).begin b = (d.begin b).onto read := by
  rw [begin, begin]
  cases lead b <;> rfl

theorem step_onto (d : Decoder) (read : List Char) (b : UInt8) :
    (d.onto read).step b = (d.step b).onto read := by
  obtain ⟨chars, pending⟩ := d
  cases pending with
  | none => exact begin_onto ⟨chars, none⟩ read b
  | some p =>
    simp only [step, onto]
    split_ifs
    · rfl
    · rfl
    · exact begin_onto ({ read := chars, pending := some p : Decoder }.emit replacement) read b

theorem foldl_step_onto (d : Decoder) (read : List Char) (bytes : List UInt8) :
    bytes.foldl step (d.onto read) = (bytes.foldl step d).onto read := by
  induction bytes generalizing d with
  | nil => rfl
  | cons b bytes ih => rw [List.foldl_cons, step_onto, ih, List.foldl_cons]

theorem finish_onto (d : Decoder) (read : List Char) :
    (d.onto read).finish = read.reverse ++ d.finish := by
  obtain ⟨chars, pending⟩ := d
  cases pending <;> simp [finish, onto]

theorem newline_not_mem_begin {d : Decoder} {b : UInt8} (hd : '\n' ∉ d.read) (hb : b ≠ newline) :
    '\n' ∉ (d.begin b).read := by
  rw [begin]
  cases hlead : lead b with
  | inl c => exact List.not_mem_cons_of_ne_of_not_mem (ne_newline_of_lead hb hlead).symm hd
  | inr p => exact hd

theorem Sound.newline_not_mem_step {d : Decoder} {b : UInt8} (hd : d.Sound) (hread : '\n' ∉ d.read)
    (hb : b ≠ newline) : '\n' ∉ (d.step b).read := by
  rw [Decoder.step]
  split
  case h_1 => exact newline_not_mem_begin hread hb
  case h_2 p hp =>
    have hlong := hd p hp
    split_ifs with hrange hmore
    · have hcode := hlong.last hmore
      exact List.not_mem_cons_of_ne_of_not_mem (ofNat_ne_newline (by omega)).symm hread
    · exact hread
    · refine newline_not_mem_begin ?_ hb
      exact List.not_mem_cons_of_ne_of_not_mem (by decide) hread

/-- Behind a newline the decoder is at rest. -/
theorem Sound.step_newline {d : Decoder} (hd : d.Sound) :
    d.step newline = { read := '\n' :: d.finish.reverse } := by
  obtain ⟨chars, pending⟩ := d
  cases pending with
  | none => simp [Decoder.step, begin, lead_newline, emit, finish]
  | some p =>
    have hlow : ¬(p.low ≤ newline && newline ≤ p.high) = true := by
      have hlong : 0x80 ≤ p.low.toNat := (hd p rfl).low
      have hten : newline.toNat = 10 := rfl
      simp only [Bool.and_eq_true, decide_eq_true_eq, UInt8.le_iff_toNat_le]
      omega
    simp [Decoder.step, hlow, begin, lead_newline, emit, finish]

end Decoder

theorem sound_start : ({} : Decoder).Sound := nofun

theorem foldl_step_newline (bytes : List UInt8) :
    (bytes ++ [newline]).foldl Decoder.step {} = { read := '\n' :: (decode bytes).reverse } := by
  rw [List.foldl_append]
  exact (sound_start.foldl bytes).step_newline

theorem decode_newline (bytes more : List UInt8) :
    decode (bytes ++ newline :: more) = decode bytes ++ '\n' :: decode more := by
  have hstart : ({ read := '\n' :: (decode bytes).reverse } : Decoder) =
      ({} : Decoder).onto ('\n' :: (decode bytes).reverse) := rfl
  rw [List.append_cons bytes newline more, decode, List.foldl_append, foldl_step_newline, hstart,
    Decoder.foldl_step_onto, Decoder.finish_onto, List.reverse_cons, List.reverse_reverse,
    List.append_assoc]
  rfl

theorem newline_not_mem_decode {bytes : List UInt8} (h : newline ∉ bytes) :
    '\n' ∉ decode bytes := by
  have hread (d : Decoder) (hd : d.Sound) (hread : '\n' ∉ d.read) :
      '\n' ∉ (bytes.foldl Decoder.step d).read := by
    induction bytes generalizing d with
    | nil => exact hread
    | cons b bytes ih =>
      have hb : b ≠ newline := fun hb => h (hb ▸ List.mem_cons_self)
      exact ih (fun hmem => h (List.mem_cons_of_mem b hmem)) (d.step b) (hd.step b)
        (hd.newline_not_mem_step hread hb)
  have hlast := hread {} sound_start nofun
  rw [decode, Decoder.finish]
  split
  · rwa [List.mem_reverse]
  · rw [List.mem_reverse]
    exact List.not_mem_cons_of_ne_of_not_mem (by decide) hlast

namespace Decoder

theorem finish_begin_ne_nil (d : Decoder) (b : UInt8) : (d.begin b).finish ≠ [] := by
  rw [begin]
  cases lead b with
  | inl c => simp [emit, finish]
  | inr p => simp [finish]

theorem finish_step_ne_nil (d : Decoder) (b : UInt8) : (d.step b).finish ≠ [] := by
  rw [step]
  split
  · exact finish_begin_ne_nil d b
  · split_ifs
    · simp [emit, finish]
    · simp [finish]
    · exact finish_begin_ne_nil _ b

end Decoder

/-- A byte is read as something, if only as a replacement. -/
theorem decode_ne_nil {bytes : List UInt8} (h : bytes ≠ []) : decode bytes ≠ [] := by
  rw [← List.dropLast_concat_getLast h, decode, List.foldl_append]
  exact Decoder.finish_step_ne_nil _ _

/-- Decoding line by line comes to the same as decoding everything. -/
theorem flatMap_decode_linesFrom (line bytes : List UInt8) :
    (Reading.linesFrom line bytes).flatMap decode = decode (line.reverse ++ bytes) := by
  induction bytes generalizing line with
  | nil => cases line <;> simp [Reading.linesFrom]
  | cons b bytes ih =>
    rw [Reading.linesFrom]
    split_ifs with hb
    · subst hb
      have hfirst := decode_newline line.reverse []
      rw [List.flatMap_cons, ih, decode_newline, List.reverse_cons, hfirst]
      simp
    · rw [ih, List.reverse_cons, List.append_assoc]
      rfl

section Encode

variable {b : UInt8} {n : Nat}

theorem lead_one (h : b.toNat < 0x80) : lead b = .inl (Char.ofNat b.toNat) := by
  rw [lead_eq, if_pos h]

theorem lead_two (h : b.toNat = n + 0xC0) (hn : 2 ≤ n ∧ n < 32) :
    lead b = .inr { code := n, more := 1 } := by
  rw [lead_eq, if_neg (by omega), if_pos (by omega), h, Nat.add_sub_cancel]

theorem lead_three (h : b.toNat = n + 0xE0) (hn : n < 16) :
    lead b = .inr
      { code := n, more := 2, low := if n = 0 then 0xA0 else 0x80,
        high := if n = 13 then 0x9F else 0xBF } := by
  rw [lead_eq, h, if_neg (by omega), if_neg (by omega)]
  by_cases h0 : n = 0
  · subst h0
    rfl
  · rw [if_neg (by omega), if_neg h0]
    by_cases h13 : n = 13
    · subst h13
      rfl
    · rw [if_neg (by omega), if_pos (by omega), if_neg h13, Nat.add_sub_cancel]

theorem lead_four (h : b.toNat = n + 0xF0) (hn : n < 5) :
    lead b = .inr
      { code := n, more := 3, low := if n = 0 then 0x90 else 0x80,
        high := if n = 4 then 0x8F else 0xBF } := by
  rw [lead_eq, h]
  interval_cases n <;> rfl

namespace Decoder

theorem step_of_inl {c : Char} (chars : List Char) (h : lead b = .inl c) :
    step { read := chars } b = { read := c :: chars } := by
  simp only [step, begin, h, emit]

theorem step_of_inr {p : Pending} (chars : List Char) (h : lead b = .inr p) :
    step { read := chars } b = { read := chars, pending := some p } := by
  simp only [step, begin, h]

variable {code : Nat} {low high : UInt8} {chars : List Char}

theorem step_of_last (h : low.toNat ≤ b.toNat ∧ b.toNat ≤ high.toNat)
    (hcode : code * 64 + (b.toNat - 0x80) = n) :
    step { read := chars, pending := some { code, more := 1, low, high } } b =
      { read := Char.ofNat n :: chars } := by
  have hrange : (low ≤ b && b ≤ high) = true := by
    simpa only [Bool.and_eq_true, decide_eq_true_eq, UInt8.le_iff_toNat_le] using h
  simp only [step, hrange, hcode, if_true, emit]

theorem step_of_more (more : Nat) (h : low.toNat ≤ b.toNat ∧ b.toNat ≤ high.toNat)
    (hcode : code * 64 + (b.toNat - 0x80) = n) :
    step { read := chars, pending := some { code, more := more + 2, low, high } } b =
      { read := chars, pending := some { code := n, more := more + 1 } } := by
  have hrange : (low ≤ b && b ≤ high) = true := by
    simpa only [Bool.and_eq_true, decide_eq_true_eq, UInt8.le_iff_toNat_le] using h
  have hmore : more + 2 ≠ 1 := by omega
  simp only [step, hrange, hmore, hcode, if_true, if_false]
  rfl

end Decoder

/-- The bytes of a character are read as that character. -/
theorem foldl_step_utf8EncodeChar (c : Char) (chars : List Char) :
    (String.utf8EncodeChar c).foldl Decoder.step { read := chars } = { read := c :: chars } := by
  have hvalid : c.val.toNat < 0xD800 ∨ 0xDFFF < c.val.toNat ∧ c.val.toNat < 0x110000 := c.valid
  have hc : Char.ofNat c.val.toNat = c := Char.ofNat_toNat c
  rw [String.utf8EncodeChar]
  generalize c.val.toNat = v at hvalid hc
  have byte {n m : Nat} (hn : n = m) (hm : m < 256) : (UInt8.ofNat n).toNat = m := by
    rw [UInt8.toNat_ofNat', hn, Nat.mod_eq_of_lt hm]
  have tail (n : Nat) : (UInt8.ofNat (n % 64 + 128)).toNat = n % 64 + 128 := byte rfl (by omega)
  have htail (n : Nat) : (0x80 : UInt8).toNat ≤ (UInt8.ofNat (n % 64 + 128)).toNat ∧
      (UInt8.ofNat (n % 64 + 128)).toNat ≤ (0xBF : UInt8).toNat := by
    rw [tail]
    simp only [UInt8.reduceToNat]
    omega
  split_ifs with h1 h2 h3
  · have hlead : (UInt8.ofNat v).toNat = v := byte rfl (by omega)
    rw [List.foldl_cons, Decoder.step_of_inl chars (lead_one (by omega)), hlead, hc, List.foldl_nil]
  · have hlead : (UInt8.ofNat (v / 64 % 32 + 192)).toNat = v / 64 + 0xC0 :=
      byte (by omega) (by omega)
    have hlast : v / 64 * 64 + ((UInt8.ofNat (v % 64 + 128)).toNat - 0x80) = v := by
      rw [tail]
      omega
    rw [List.foldl_cons, Decoder.step_of_inr chars (lead_two hlead (by omega)), List.foldl_cons,
      Decoder.step_of_last (htail v) hlast, List.foldl_nil, hc]
  · have hlead : (UInt8.ofNat (v / 4096 % 16 + 224)).toNat = v / 4096 + 0xE0 :=
      byte (by omega) (by omega)
    have hsecond : v / 4096 * 64 + ((UInt8.ofNat (v / 64 % 64 + 128)).toNat - 0x80) = v / 64 := by
      rw [tail]
      omega
    have hlast : v / 64 * 64 + ((UInt8.ofNat (v % 64 + 128)).toNat - 0x80) = v := by
      rw [tail]
      omega
    -- the second byte rules out what two bytes can say, and surrogates
    have hrange : (if v / 4096 = 0 then (0xA0 : UInt8) else 0x80).toNat ≤
          (UInt8.ofNat (v / 64 % 64 + 128)).toNat ∧
        (UInt8.ofNat (v / 64 % 64 + 128)).toNat ≤
          (if v / 4096 = 13 then (0x9F : UInt8) else 0xBF).toNat := by
      rw [tail]
      split_ifs <;> simp only [UInt8.reduceToNat] <;> omega
    rw [List.foldl_cons, Decoder.step_of_inr chars (lead_three hlead (by omega)), List.foldl_cons,
      Decoder.step_of_more 0 hrange hsecond, List.foldl_cons,
      Decoder.step_of_last (htail v) hlast, List.foldl_nil, hc]
  · have hlead : (UInt8.ofNat (v / 262144 % 8 + 240)).toNat = v / 262144 + 0xF0 :=
      byte (by omega) (by omega)
    have hsecond : v / 262144 * 64 + ((UInt8.ofNat (v / 4096 % 64 + 128)).toNat - 0x80) =
        v / 4096 := by
      rw [tail]
      omega
    have hthird : v / 4096 * 64 + ((UInt8.ofNat (v / 64 % 64 + 128)).toNat - 0x80) = v / 64 := by
      rw [tail]
      omega
    have hlast : v / 64 * 64 + ((UInt8.ofNat (v % 64 + 128)).toNat - 0x80) = v := by
      rw [tail]
      omega
    have hrange : (if v / 262144 = 0 then (0x90 : UInt8) else 0x80).toNat ≤
          (UInt8.ofNat (v / 4096 % 64 + 128)).toNat ∧
        (UInt8.ofNat (v / 4096 % 64 + 128)).toNat ≤
          (if v / 262144 = 4 then (0x8F : UInt8) else 0xBF).toNat := by
      rw [tail]
      split_ifs <;> simp only [UInt8.reduceToNat] <;> omega
    rw [List.foldl_cons, Decoder.step_of_inr chars (lead_four hlead (by omega)), List.foldl_cons,
      Decoder.step_of_more 1 hrange hsecond, List.foldl_cons,
      Decoder.step_of_more 0 (htail (v / 64)) hthird, List.foldl_cons,
      Decoder.step_of_last (htail v) hlast, List.foldl_nil, hc]

theorem decode_flatMap_utf8EncodeChar (text : List Char) :
    decode (text.flatMap String.utf8EncodeChar) = text := by
  have hread (text chars : List Char) :
      (text.flatMap String.utf8EncodeChar).foldl Decoder.step { read := chars } =
        { read := text.reverse ++ chars } := by
    induction text generalizing chars with
    | nil => rfl
    | cons c text ih =>
      rw [List.flatMap_cons, List.foldl_append, foldl_step_utf8EncodeChar, ih, List.reverse_cons,
        List.append_assoc, List.singleton_append]
  rw [decode, hread, Decoder.finish, List.append_nil, List.reverse_reverse]

theorem toUTF8_data_toList (text : String) :
    text.toUTF8.data.toList = text.toList.flatMap String.utf8EncodeChar := by
  have htext : text.toUTF8 = text.toList.utf8Encode := by
    rw [← String.toByteArray_ofList, String.ofList_toList]
    rfl
  rw [htext, List.utf8Encode, List.data_toByteArray]

theorem decode_toUTF8 (text : String) : decode text.toUTF8.data.toList = text.toList := by
  rw [toUTF8_data_toList, decode_flatMap_utf8EncodeChar]

end Encode

end Forth.Utf8
