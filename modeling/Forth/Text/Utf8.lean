/-! # Reading bytes as UTF-8

Every sequence of bytes reads as text. Where the bytes are no UTF-8, each
longest beginning of a well-formed sequence that cannot be continued, and each
byte that begins none, becomes one replacement character.
-/

namespace Forth.Utf8

def replacement : Char := '\uFFFD'

/-- A character whose first bytes have been read: what they say of its code
point, how many bytes are still to come, and the range of the next one. -/
structure Pending where
  code : Nat
  more : Nat
  low : UInt8 := 0x80
  high : UInt8 := 0xBF

/-- What a byte that does not continue a character says: a character of its
own, or the beginning of a longer one. -/
def lead (b : UInt8) : Char ⊕ Pending :=
  if b < 0x80 then .inl (Char.ofNat b.toNat)
  else if 0xC2 ≤ b && b ≤ 0xDF then .inr { code := b.toNat - 0xC0, more := 1 }
  else if b = 0xE0 then .inr { code := 0, more := 2, low := 0xA0 }
  else if b = 0xED then .inr { code := 0xD, more := 2, high := 0x9F }
  else if 0xE1 ≤ b && b ≤ 0xEF then .inr { code := b.toNat - 0xE0, more := 2 }
  else if b = 0xF0 then .inr { code := 0, more := 3, low := 0x90 }
  else if b = 0xF4 then .inr { code := 4, more := 3, high := 0x8F }
  else if 0xF1 ≤ b && b ≤ 0xF3 then .inr { code := b.toNat - 0xF0, more := 3 }
  else .inl replacement

structure Decoder where
  read : List Char := []
  pending : Option Pending := none

namespace Decoder

def emit (d : Decoder) (c : Char) : Decoder :=
  { read := c :: d.read }

def begin (d : Decoder) (b : UInt8) : Decoder :=
  match lead b with
  | .inl c => d.emit c
  | .inr p => { d with pending := some p }

def step (d : Decoder) (b : UInt8) : Decoder :=
  match d.pending with
  | none => d.begin b
  | some p =>
    if p.low ≤ b && b ≤ p.high then
      let code := p.code * 64 + (b.toNat - 0x80)
      if p.more = 1 then d.emit (Char.ofNat code)
      else { d with pending := some { code, more := p.more - 1 } }
    else (d.emit replacement).begin b

def finish (d : Decoder) : List Char :=
  match d.pending with
  | none => d.read.reverse
  | some _ => (replacement :: d.read).reverse

end Decoder

def decode (bytes : List UInt8) : List Char :=
  (bytes.foldl Decoder.step {}).finish

/-- Whether the bytes are UTF-8, so that nothing is replaced. -/
def isWellFormed (bytes : List UInt8) : Bool :=
  (String.fromUTF8? bytes.toByteArray).isSome

@[simp] theorem decode_nil : decode [] = [] := rfl

end Forth.Utf8
