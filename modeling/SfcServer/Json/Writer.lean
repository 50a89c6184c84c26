import SfcServer.Json.Basic
import SfcServer.Number.Decimal

/-!
# Writing JSON

Members and items are divided by a comma and a blank, a name and its value by a
colon and a blank, and every character outside printable ASCII is escaped, one
beyond the first plane as a pair of surrogates.
-/

namespace SfcServer
namespace Json

def hexDigit (n : Nat) : Char :=
  if n < 10 then Char.ofNat (48 + n) else Char.ofNat (87 + n)

def hex4 (n : Nat) : Text :=
  [hexDigit (n / 4096 % 16), hexDigit (n / 256 % 16), hexDigit (n / 16 % 16), hexDigit (n % 16)]

def unicodeEscape (n : Nat) : Text :=
  Text.backslash :: 'u' :: hex4 n

def escapeChar (c : Char) : Text :=
  let n := c.toNat
  if c = Text.doubleQuote ∨ c = Text.backslash then [Text.backslash, c]
  else if c = '\n' then [Text.backslash, 'n']
  else if c = '\r' then [Text.backslash, 'r']
  else if c = '\t' then [Text.backslash, 't']
  else if n = 12 then [Text.backslash, 'f']
  else if n = 8 then [Text.backslash, 'b']
  else if 32 ≤ n ∧ n < 127 then [c]
  else if n < 0x10000 then unicodeEscape n
  else
    unicodeEscape (0xD800 + (n - 0x10000) / 1024) ++
      unicodeEscape (0xDC00 + (n - 0x10000) % 1024)

def quote (s : String) : Text :=
  Text.doubleQuote :: (s.toList.flatMap escapeChar ++ [Text.doubleQuote])

def openBrace : Char := Char.ofNat 123
def closeBrace : Char := Char.ofNat 125

mutual

def write : Json -> Text
  | .null => "null".toList
  | .bool true => "true".toList
  | .bool false => "false".toList
  | .int n => Text.ofInt n
  | .real x => x.write Double.encoded
  | .str s => quote s
  | .arr items => '[' :: (writeItems items ++ [']'])
  | .obj members => openBrace :: (writeMembers members ++ [closeBrace])

def writeItems : List Json -> Text
  | [] => []
  | [item] => write item
  | item :: rest => write item ++ ", ".toList ++ writeItems rest

def writeMembers : List (String × Json) -> Text
  | [] => []
  | [(name, value)] => quote name ++ ": ".toList ++ write value
  | (name, value) :: rest =>
    quote name ++ ": ".toList ++ write value ++ ", ".toList ++ writeMembers rest

end

end Json
end SfcServer
