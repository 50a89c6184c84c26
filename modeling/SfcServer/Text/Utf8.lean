import SfcServer.Text.Basic

/-!
# UTF-8

Bytes leave this library through `Utf8.encode` and enter it through `Utf8.read`.
Reading marks every ill-formed sequence once, so that a caller may refuse it, skip
it or put a replacement in its place; an ill-formed sequence is as long as the
longest part of it that could still have begun a character.
-/

namespace SfcServer

abbrev Bytes := List UInt8

namespace Utf8

def encode (t : Text) : Bytes :=
  t.flatMap String.utf8EncodeChar

/-! ## Offsets of bytes -/

/--
For every byte of the encoding the index of its character, and at the end the index
after the last one.  The first character has the given index.
-/
def indicesFrom (index : Nat) : Text -> List Nat
  | [] => [index]
  | c :: rest =>
    List.replicate (String.utf8EncodeChar c).length index ++ indicesFrom (index + 1) rest

def byteAt (t : Text) (index : Nat) : Nat :=
  (encode (t.take index)).length

/--
The index of the character that a byte of the encoding belongs to; bytes past the end
count as the end.  Where every character is one byte, both indices are the same.
-/
def characterAt (t : Text) (byte : Nat) : Nat :=
  if (encode t).length = t.length then byte
  else
    let indices := indicesFrom 0 t
    indices.getD (min byte (indices.length - 1)) t.length

/-! ## Reading -/

structure Begun where
  /-- The bits collected so far. -/
  value : Nat
  /-- How many bytes are owed after the next one. -/
  owed : Nat
  /-- Bounds of the next byte. -/
  low : Nat
  high : Nat
  deriving DecidableEq, Repr

inductive Lead where
  | char (c : Char)
  | begun (p : Begun)
  | invalid
  deriving DecidableEq, Repr

def lead (b : Nat) : Lead :=
  if b < 0x80 then .char (Char.ofNat b)
  else if b < 0xC2 then .invalid
  else if b < 0xE0 then .begun ⟨b - 0xC0, 0, 0x80, 0xBF⟩
  else if b < 0xF0 then
    .begun ⟨b - 0xE0, 1, if b = 0xE0 then 0xA0 else 0x80, if b = 0xED then 0x9F else 0xBF⟩
  else if b < 0xF5 then
    .begun ⟨b - 0xF0, 2, if b = 0xF0 then 0x90 else 0x80, if b = 0xF4 then 0x8F else 0xBF⟩
  else .invalid

/-- The characters of a byte sequence, with `none` for each ill-formed sequence. -/
def readFrom : Option Begun -> Bytes -> List (Option Char)
  | none, [] => []
  | some _, [] => [none]
  | none, b :: rest =>
    match lead b.toNat with
    | .char c => some c :: readFrom none rest
    | .begun p => readFrom (some p) rest
    | .invalid => none :: readFrom none rest
  | some p, b :: rest =>
    if p.low ≤ b.toNat ∧ b.toNat ≤ p.high then
      let value := p.value * 64 + (b.toNat - 0x80)
      match p.owed with
      | 0 => some (Char.ofNat value) :: readFrom none rest
      | owed + 1 => readFrom (some ⟨value, owed, 0x80, 0xBF⟩) rest
    else
      none ::
        match lead b.toNat with
        | .char c => some c :: readFrom none rest
        | .begun p => readFrom (some p) rest
        | .invalid => none :: readFrom none rest

def read (bytes : Bytes) : List (Option Char) :=
  readFrom none bytes

def decode? (bytes : Bytes) : Option Text :=
  (read bytes).mapM id

def decodeSkipping (bytes : Bytes) : Text :=
  (read bytes).filterMap id

def decodeReplacing (bytes : Bytes) : Text :=
  (read bytes).map (·.getD (Char.ofNat 0xFFFD))

end Utf8
end SfcServer
