import SfcServer.Text.Utf8

/-!
# Percent encoding

Outside of a small set of characters, a path is spelled in a URI by the bytes of its
UTF-8 form, two hexadecimal digits each.
-/

namespace SfcServer
namespace Percent

def isPlain (c : Char) : Bool :=
  c.isAlphanum || c == '_' || c == '.' || c == '-' || c == '~' || c == '/'

def hexDigits : List Char :=
  "0123456789ABCDEF".toList

def hexDigit (n : Nat) : Char :=
  hexDigits.getD n '0'

def hexValue? (c : Char) : Option Nat :=
  (hexDigits.findIdx? (· == c.toUpper))

def encodeByte (b : UInt8) : Text :=
  ['%', hexDigit (b.toNat / 16), hexDigit (b.toNat % 16)]

def encode (t : Text) : Text :=
  t.flatMap fun c => if isPlain c then [c] else (Utf8.encode [c]).flatMap encodeByte

/-- The bytes that a text of ASCII characters spells; a bad escape stands for itself. -/
def bytesOf : Text -> Bytes
  | '%' :: a :: b :: rest =>
    match hexValue? a, hexValue? b with
    | some high, some low => UInt8.ofNat (high * 16 + low) :: bytesOf rest
    | _, _ => UInt8.ofNat '%'.toNat :: bytesOf (a :: b :: rest)
  | c :: rest => UInt8.ofNat c.toNat :: bytesOf rest
  | [] => []

def isAscii (c : Char) : Bool :=
  c.toNat < 128

def decodeFrom (run : Text) : Text -> Text
  | [] => Utf8.decodeReplacing (bytesOf run.reverse)
  | c :: rest =>
    if isAscii c then decodeFrom (c :: run) rest
    else Utf8.decodeReplacing (bytesOf run.reverse) ++ c :: decodeFrom [] rest

def decode (t : Text) : Text :=
  decodeFrom [] t

end Percent
end SfcServer
