import SfcServer.Json.Writer
import SfcServer.Text.Printable

/-!
# Showing values in messages

A message that reports a value shows a string bare and everything else by its
structure; a string inside a structure stands in quotes, in double ones only when
it holds a single quote and no double one.
-/

namespace SfcServer
namespace Json

def hexDigits (width n : Nat) : Text :=
  let digits := (Nat.toDigits 16 n)
  List.replicate (width - digits.length) '0' ++ digits

def shownChar (quote c : Char) : Text :=
  let n := c.toNat
  if c = quote ∨ c = Text.backslash then [Text.backslash, c]
  else if c = '\t' then [Text.backslash, 't']
  else if c = '\n' then [Text.backslash, 'n']
  else if c = '\r' then [Text.backslash, 'r']
  else if Text.isPrintable c then [c]
  else if n < 0x100 then Text.backslash :: 'x' :: hexDigits 2 n
  else if n < 0x10000 then Text.backslash :: 'u' :: hexDigits 4 n
  else Text.backslash :: 'U' :: hexDigits 8 n

def shownString (s : String) : Text :=
  let t := s.toList
  let quote :=
    if t.contains Text.singleQuote && !t.contains Text.doubleQuote then Text.doubleQuote
    else Text.singleQuote
  quote :: (t.flatMap (shownChar quote) ++ [quote])

mutual

def shown : Json -> Text
  | .null => "None".toList
  | .bool true => "True".toList
  | .bool false => "False".toList
  | .int n => Text.ofInt n
  | .real x => x.write Double.shown
  | .str s => shownString s
  | .arr items => '[' :: (shownItems items ++ [']'])
  | .obj members => openBrace :: (shownMembers members ++ [closeBrace])

def shownItems : List Json -> Text
  | [] => []
  | [item] => shown item
  | item :: rest => shown item ++ ", ".toList ++ shownItems rest

def shownMembers : List (String × Json) -> Text
  | [] => []
  | [(name, value)] => shownString name ++ ": ".toList ++ shown value
  | (name, value) :: rest =>
    shownString name ++ ": ".toList ++ shown value ++ ", ".toList ++ shownMembers rest

end

def display : Json -> String
  | .str s => s
  | value => String.ofList (shown value)

end Json
end SfcServer
