import SfcServer.Text.Utf8

/-!
# Encodings of a message

The bytes of a message tell how they are encoded: by a mark at their head, or else by the
zeros among the first of them, since a message begins with characters of one byte.
-/

namespace SfcServer

inductive Encoding where
  | utf8
  | utf16 (bigEndian : Bool)
  | utf32 (bigEndian : Bool)
  deriving DecidableEq, Repr

namespace Encoding

def marked? : Bytes -> Option (Encoding × Bytes)
  | 0x00 :: 0x00 :: 0xFE :: 0xFF :: rest => some (.utf32 true, rest)
  | 0xFF :: 0xFE :: 0x00 :: 0x00 :: rest => some (.utf32 false, rest)
  | 0xFE :: 0xFF :: rest => some (.utf16 true, rest)
  | 0xFF :: 0xFE :: rest => some (.utf16 false, rest)
  | 0xEF :: 0xBB :: 0xBF :: rest => some (.utf8, rest)
  | _ => none

def guess : Bytes -> Encoding
  | a :: b :: c :: d :: _ =>
    if a = 0 then if b = 0 then .utf32 true else .utf16 true
    else if b = 0 then if c = 0 ∧ d = 0 then .utf32 false else .utf16 false
    else .utf8
  | [a, b] => if a = 0 then .utf16 true else if b = 0 then .utf16 false else .utf8
  | _ => .utf8

def number (bigEndian : Bool) (bytes : Bytes) : Nat :=
  (if bigEndian then bytes else bytes.reverse).foldl (fun n b => n * 256 + b.toNat) 0

def pairs? (bigEndian : Bool) : Bytes -> Option (List Nat)
  | [] => some []
  | a :: b :: rest => (pairs? bigEndian rest).map (number bigEndian [a, b] :: ·)
  | _ => none

/-- The characters of some units; the higher half of a pair stands in front of the lower one. -/
def joinUnits? : List Nat -> Option Text
  | [] => some []
  | unit :: rest =>
    if unit < 0xD800 ∨ 0xDFFF < unit then (joinUnits? rest).map (Char.ofNat unit :: ·)
    else if unit < 0xDC00 then
      match rest with
      | low :: rest =>
        if 0xDC00 ≤ low ∧ low ≤ 0xDFFF then
          let value := 0x10000 + (unit - 0xD800) * 0x400 + (low - 0xDC00)
          (joinUnits? rest).map (Char.ofNat value :: ·)
        else none
      | [] => none
    else none

def quads? (bigEndian : Bool) : Bytes -> Option Text
  | [] => some []
  | a :: b :: c :: d :: rest =>
    let value := number bigEndian [a, b, c, d]
    if value.isValidChar then (quads? bigEndian rest).map (Char.ofNat value :: ·) else none
  | _ => none

def read? (bytes : Bytes) : Encoding -> Option Text
  | .utf8 => Utf8.decode? bytes
  | .utf16 bigEndian => (pairs? bigEndian bytes).bind joinUnits?
  | .utf32 bigEndian => quads? bigEndian bytes

def decode? (bytes : Bytes) : Option Text :=
  match marked? bytes with
  | some (encoding, rest) => read? rest encoding
  | none => read? bytes (guess bytes)

end Encoding
end SfcServer
