/-!
# Text

Documents, tags, expressions and generated code are sequences of code points, and
every offset, length and column counts code points.  The operations here are the
ones shared by all readers of text: cutting, searching, trimming and splitting.
-/

namespace SfcServer

/-- What is left of a list after its head and some further items is shorter than the list. -/
theorem length_drop_lt_cons {α : Type} (a : α) (rest : List α) (n : Nat) :
    (rest.drop n).length < (a :: rest).length := by
  rw [List.length_drop, List.length_cons]
  omega

abbrev Text := List Char

namespace Text

def singleQuote : Char := Char.ofNat 39
def doubleQuote : Char := Char.ofNat 34
def backtick : Char := Char.ofNat 96
def backslash : Char := Char.ofNat 92

/-- Whether a code point lies in one of the inclusive ranges of a table. -/
def inRanges (table : List (Nat × Nat)) (c : Char) : Bool :=
  table.any fun (first, last) => first ≤ c.toNat && c.toNat ≤ last

/-! ## Cutting -/

def slice (t : Text) (start stop : Nat) : Text :=
  (t.take stop).drop start

/-- The text without a leading copy of `lead`, when it starts with one. -/
def dropLead? (lead t : Text) : Option Text :=
  if lead.isPrefixOf t then some (t.drop lead.length) else none

def joinWith (separator : Text) : List Text -> Text
  | [] => []
  | [part] => part
  | part :: rest => part ++ separator ++ joinWith separator rest

/-- The parts of a text between the characters that `p` accepts. -/
def splitWhere (p : Char -> Bool) : Text -> List Text
  | [] => [[]]
  | c :: rest =>
    if p c then [] :: splitWhere p rest
    else
      match splitWhere p rest with
      | [] => [[c]]
      | part :: parts => (c :: part) :: parts

/-! ## Searching -/

def indexOf? (needle : Text) : Text -> Option Nat
  | [] => if needle.isEmpty then some 0 else none
  | c :: rest =>
    if needle.isPrefixOf (c :: rest) then some 0
    else (indexOf? needle rest).map (· + 1)

/-- Offset of the first copy of `needle` at or after `start`. -/
def indexOfFrom? (needle t : Text) (start : Nat) : Option Nat :=
  (indexOf? needle (t.drop start)).map (· + start)

def lastIndexOf? (needle : Text) : Text -> Option Nat
  | [] => if needle.isEmpty then some 0 else none
  | c :: rest =>
    match lastIndexOf? needle rest with
    | some i => some (i + 1)
    | none => if needle.isPrefixOf (c :: rest) then some 0 else none

/-! ## Blanks -/

/-- White space of any script: blanks, line ends, and the four information separators. -/
def isBlank (c : Char) : Bool :=
  let n := c.toNat
  (9 ≤ n && n ≤ 13) || (28 ≤ n && n ≤ 32) || n == 0x85 || n == 0xA0 || n == 0x1680 ||
    (0x2000 ≤ n && n ≤ 0x200A) || n == 0x2028 || n == 0x2029 || n == 0x202F || n == 0x205F ||
    n == 0x3000

def trimLeft (t : Text) : Text :=
  t.dropWhile isBlank

def trimRight (t : Text) : Text :=
  (t.reverse.dropWhile isBlank).reverse

def trim (t : Text) : Text :=
  trimRight (trimLeft t)

def words (t : Text) : List Text :=
  (splitWhere isBlank t).filter (fun word => !word.isEmpty)

/-- Characters that end a line of prose; a carriage return and line feed end one line. -/
def isLineEnd (c : Char) : Bool :=
  let n := c.toNat
  (10 ≤ n && n ≤ 13) || (28 ≤ n && n ≤ 30) || n == 0x85 || n == 0x2028 || n == 0x2029

/-- Puts one line feed for each carriage return, with or without its line feed. -/
def normalizeReturns : Text -> Text
  | '\r' :: '\n' :: rest => '\n' :: normalizeReturns rest
  | '\r' :: rest => '\n' :: normalizeReturns rest
  | c :: rest => c :: normalizeReturns rest
  | [] => []

/-- The lines of a piece of prose; a line end at the very end opens no further line. -/
def proseLines (t : Text) : List Text :=
  let parts := splitWhere isLineEnd (normalizeReturns t)
  if parts.getLast? = some [] then parts.dropLast else parts

end Text
end SfcServer
