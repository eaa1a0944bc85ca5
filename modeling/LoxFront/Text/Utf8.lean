/-!
# Decoding text

Bytes are read as text in the encoding of one to four bytes a character.  Bytes that are no text
are refused with the place and the length of the first maximal piece that starts no character
(`Utf8.Fault`): overlong forms, surrogates and numbers beyond the last code point are found at the
second byte already.
-/

namespace LoxFront.Text.Utf8

/-- Why bytes are no text. -/
inductive Reason where
  /-- No character starts with this byte. -/
  | start
  /-- The bytes begin a character, and the next byte does not go on with it. -/
  | continuation
  /-- The bytes begin a character, and there are no more. -/
  | truncated
deriving DecidableEq, Repr

/-- The first bytes that are no text: their position, their number and the first of them. -/
structure Fault where
  position : Nat
  count : Nat
  first : UInt8
  reason : Reason
deriving DecidableEq, Repr

/-- The wording of a reason. -/
def Reason.message : Reason → String
  | .start => "invalid start byte"
  | .continuation => "invalid continuation byte"
  | .truncated => "unexpected end of data"

/-- The message about bytes that are no text. -/
def Fault.message (f : Fault) : String :=
  let place :=
    if f.count = 1 then
      "byte 0x" ++ String.ofList ((Nat.toDigits 16 f.first.toNat).leftpad 2 '0') ++
        " in position " ++ toString f.position
    else
      "bytes in position " ++ toString f.position ++ "-" ++
        toString (f.position + f.count - 1)
  "'utf-8' codec can't decode " ++ place ++ ": " ++ f.reason.message

/-- A character of which some bytes have been read. -/
structure Pending where
  /-- The first byte of the character. -/
  first : UInt8
  /-- The number of bytes read. -/
  taken : Nat
  /-- The number of bytes still to come, less one. -/
  missing : Nat
  /-- The bits of the code point read. -/
  bits : Nat
  /-- The least byte that may come next. -/
  low : UInt8
  /-- The greatest byte that may come next. -/
  high : UInt8

/-- The character that a byte above the single-byte range begins. -/
def begin? (b : UInt8) : Option Pending :=
  if b < 0xc2 then none
  else if b < 0xe0 then some ⟨b, 1, 0, b.toNat - 0xc0, 0x80, 0xbf⟩
  else if b < 0xf0 then
    some ⟨b, 1, 1, b.toNat - 0xe0, if b = 0xe0 then 0xa0 else 0x80, if b = 0xed then 0x9f else 0xbf⟩
  else if b < 0xf5 then
    some ⟨b, 1, 2, b.toNat - 0xf0, if b = 0xf0 then 0x90 else 0x80, if b = 0xf4 then 0x8f else 0xbf⟩
  else none

/-- Reads the bytes from a position on, with the character in progress. -/
def decodeFrom (position : Nat) : Option Pending → List UInt8 → Except Fault (List Char)
  | none, [] => .ok []
  | some p, [] => .error ⟨position - p.taken, p.taken, p.first, .truncated⟩
  | none, b :: rest =>
    if b < 0x80 then (decodeFrom (position + 1) none rest).map (Char.ofNat b.toNat :: ·)
    else match begin? b with
      | none => .error ⟨position, 1, b, .start⟩
      | some p => decodeFrom (position + 1) (some p) rest
  | some p, b :: rest =>
    if b < p.low ∨ p.high < b then
      .error ⟨position - p.taken, p.taken, p.first, .continuation⟩
    else
      let bits := 64 * p.bits + (b.toNat - 0x80)
      match p.missing with
      | 0 => (decodeFrom (position + 1) none rest).map (Char.ofNat bits :: ·)
      | missing + 1 =>
        decodeFrom (position + 1) (some ⟨p.first, p.taken + 1, missing, bits, 0x80, 0xbf⟩) rest

/-- Reads bytes as text. -/
def decode (bytes : List UInt8) : Except Fault (List Char) := decodeFrom 0 none bytes

end LoxFront.Text.Utf8
