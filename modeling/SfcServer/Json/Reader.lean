import SfcServer.Json.Basic
import SfcServer.Number.Decimal

/-!
# Reading JSON

Besides the standard form the reader accepts `NaN`, `Infinity` and `-Infinity`,
and when a name is repeated the last member counts.  Every step consumes a character,
so the length of the text bounds the depth of the recursion.
-/

namespace SfcServer
namespace Json

def isSpace (c : Char) : Bool :=
  c == ' ' || c == '\t' || c == '\n' || c == '\r'

def skipSpace (t : Text) : Text :=
  t.dropWhile isSpace

/-! ## Numbers -/

def fractionOf (t : Text) : Option (Text × Text) :=
  match t with
  | '.' :: rest =>
    let digits := rest.takeWhile Text.isAsciiDigit
    if digits.isEmpty then none else some (digits, rest.dropWhile Text.isAsciiDigit)
  | _ => none

def powerOf (t : Text) : Option (Int × Text) :=
  match t with
  | mark :: rest =>
    if mark = 'e' ∨ mark = 'E' then
      let (negative, after) := Text.signOf rest
      let digits := after.takeWhile Text.isAsciiDigit
      if digits.isEmpty then none
      else
        let size : Int := Text.natOfDigits digits
        some (if negative then -size else size, after.dropWhile Text.isAsciiDigit)
    else none
  | [] => none

/-- The digits of a whole part: a zero, or digits that start with another. -/
def wholeOf (t : Text) : Option (Text × Text) :=
  match t with
  | '0' :: rest => some (['0'], rest)
  | c :: _ =>
    if Text.isAsciiDigit c then
      some (t.takeWhile Text.isAsciiDigit, t.dropWhile Text.isAsciiDigit)
    else none
  | [] => none

def readNumber (t : Text) : Option (Json × Text) :=
  let (negative, body) := match t with
    | '-' :: rest => (true, rest)
    | _ => (false, t)
  match wholeOf body with
  | none => none
  | some (whole, rest) =>
    let (fraction, afterFraction) := match fractionOf rest with
      | some (digits, more) => (digits, more)
      | none => ([], rest)
    match powerOf afterFraction with
    | some (power, more) =>
      some (.real ((Double.Literal.mk whole fraction power).value negative), more)
    | none =>
      if fraction.isEmpty then
        let size : Int := Text.natOfDigits whole
        some (.int (if negative then -size else size), rest)
      else some (.real ((Double.Literal.mk whole fraction 0).value negative), afterFraction)

/-! ## Strings -/

def hexValue? (c : Char) : Option Nat :=
  let n := c.toNat
  if 48 ≤ n ∧ n ≤ 57 then some (n - 48)
  else if 97 ≤ n ∧ n ≤ 102 then some (n - 87)
  else if 65 ≤ n ∧ n ≤ 70 then some (n - 55)
  else none

def readHex4 (t : Text) : Option (Nat × Text) :=
  match t with
  | a :: b :: c :: d :: rest => do
    let a ← hexValue? a
    let b ← hexValue? b
    let c ← hexValue? c
    let d ← hexValue? d
    return (a * 4096 + b * 256 + c * 16 + d, rest)
  | _ => none

def simpleEscape? (c : Char) : Option Char :=
  if c = Text.doubleQuote ∨ c = Text.backslash ∨ c = '/' then some c
  else if c = 'b' then some (Char.ofNat 8)
  else if c = 'f' then some (Char.ofNat 12)
  else if c = 'n' then some '\n'
  else if c = 'r' then some '\r'
  else if c = 't' then some '\t'
  else none

/-- The character of an escaped code unit; the second half of a pair is taken along. -/
def escapedChar (unit : Nat) (rest : Text) : Char × Text :=
  if 0xD800 ≤ unit ∧ unit < 0xDC00 then
    match rest with
    | slash :: 'u' :: more =>
      if slash = Text.backslash then
        match readHex4 more with
        | some (low, after) =>
          if 0xDC00 ≤ low ∧ low < 0xE000 then
            (Char.ofNat (0x10000 + (unit - 0xD800) * 1024 + (low - 0xDC00)), after)
          else (Char.ofNat 0xFFFD, rest)
        | none => (Char.ofNat 0xFFFD, rest)
      else (Char.ofNat 0xFFFD, rest)
    | _ => (Char.ofNat 0xFFFD, rest)
  else if 0xDC00 ≤ unit ∧ unit < 0xE000 then (Char.ofNat 0xFFFD, rest)
  else (Char.ofNat unit, rest)

def readStringFrom (collected : Text) : Nat -> Text -> Option (String × Text)
  | 0, _ => none
  | fuel + 1, t =>
    match t with
    | [] => none
    | c :: rest =>
      if c = Text.doubleQuote then some (String.ofList collected.reverse, rest)
      else if c.toNat < 32 then none
      else if c = Text.backslash then
        match rest with
        | 'u' :: more =>
          match readHex4 more with
          | some (unit, after) =>
            let (d, after) := escapedChar unit after
            readStringFrom (d :: collected) fuel after
          | none => none
        | e :: more =>
          match simpleEscape? e with
          | some d => readStringFrom (d :: collected) fuel more
          | none => none
        | [] => none
      else readStringFrom (c :: collected) fuel rest

def readString (t : Text) : Option (String × Text) :=
  readStringFrom [] (t.length + 1) t

/-! ## Values -/

def words : List (Text × Json) :=
  [("null".toList, .null), ("true".toList, .bool true), ("false".toList, .bool false),
   ("NaN".toList, .real .nan), ("Infinity".toList, .real (.infinite false)),
   ("-Infinity".toList, .real (.infinite true))]

def readWord (t : Text) : Option (Json × Text) :=
  words.findSome? fun (word, value) => (Text.dropLead? word t).map (value, ·)

mutual

def readValue : Nat -> Text -> Option (Json × Text)
  | 0, _ => none
  | fuel + 1, t =>
    match t with
    | [] => none
    | c :: rest =>
      if c = Text.doubleQuote then (readString rest).map fun (s, more) => (.str s, more)
      else if c = '[' then
        match skipSpace rest with
        | ']' :: more => some (.arr [], more)
        | first => (readItems fuel first).map fun (items, more) => (.arr items, more)
      else if c.toNat = 123 then
        match skipSpace rest with
        | [] => none
        | d :: more =>
          if d.toNat = 125 then some (.obj [], more)
          else (readMembers fuel (d :: more)).map fun (members, more) => (ofMembers members, more)
      else
        match readWord t with
        | some found => some found
        | none => readNumber t

def readItems : Nat -> Text -> Option (List Json × Text)
  | 0, _ => none
  | fuel + 1, t =>
    match readValue fuel t with
    | none => none
    | some (item, rest) =>
      match skipSpace rest with
      | ',' :: more =>
        (readItems fuel (skipSpace more)).map fun (items, after) => (item :: items, after)
      | ']' :: more => some ([item], more)
      | _ => none

def readMembers : Nat -> Text -> Option (List (String × Json) × Text)
  | 0, _ => none
  | fuel + 1, t =>
    match t with
    | [] => none
    | c :: rest =>
      if c ≠ Text.doubleQuote then none
      else
        match readString rest with
        | none => none
        | some (name, rest) =>
          match skipSpace rest with
          | ':' :: rest =>
            match readValue fuel (skipSpace rest) with
            | none => none
            | some (value, rest) =>
              match skipSpace rest with
              | ',' :: more =>
                (readMembers fuel (skipSpace more)).map fun (members, after) =>
                  ((name, value) :: members, after)
              | d :: more => if d.toNat = 125 then some ([(name, value)], more) else none
              | [] => none
          | _ => none

end

def parse? (t : Text) : Option Json :=
  match readValue (t.length + 1) (skipSpace t) with
  | some (value, rest) => if (skipSpace rest).isEmpty then some value else none
  | none => none

end Json
end SfcServer
