import SfcServer.Text.Basic

/-!
# Numerals

Numbers typed by a person or announced by a peer may use the decimal digits of any
script, a sign, surrounding blanks, and single underscores between digits.
-/

namespace SfcServer
namespace Text

/-- The zeros beyond ASCII; each is followed by the other nine digits of its script. -/
def digitZeros : List Nat :=
  [1632, 1776, 1984, 2406, 2534, 2662, 2790, 2918, 3046, 3174, 3302, 3430, 3558, 3664, 3792,
   3872, 4160, 4240, 6112, 6160, 6470, 6608, 6784, 6800, 6992, 7088, 7232, 7248, 42528, 43216,
   43264, 43472, 43504, 43600, 44016, 65296, 66720, 68912, 69734, 69872, 69942, 70096, 70384,
   70736, 70864, 71248, 71360, 71472, 71904, 72016, 72784, 73040, 73120, 92768, 92864, 93008,
   120782, 120792, 120802, 120812, 120822, 123200, 123632, 125264, 130032]

def digitValue? (c : Char) : Option Nat :=
  let n := c.toNat
  if n < 128 then if 48 ≤ n ∧ n ≤ 57 then some (n - 48) else none
  else (digitZeros.find? fun first => first ≤ n && n ≤ first + 9).map (n - ·)

def asciiDigits (t : Text) : Text :=
  t.map fun c => match digitValue? c with
    | some d => Char.ofNat (48 + d)
    | none => c

def isAsciiDigit (c : Char) : Bool :=
  48 ≤ c.toNat && c.toNat ≤ 57

def natOfDigits (t : Text) : Nat :=
  t.foldl (fun n c => n * 10 + (c.toNat - 48)) 0

def dropDigitGaps (previous : Option Char) : Text -> Option Text
  | [] => some []
  | c :: rest =>
    if c = '_' then
      match previous, rest with
      | some before, after :: _ =>
        if isAsciiDigit before && isAsciiDigit after then dropDigitGaps (some c) rest else none
      | _, _ => none
    else (dropDigitGaps (some c) rest).map (c :: ·)

/-- Splits a leading sign off: whether it is a minus, and the rest. -/
def signOf : Text -> Bool × Text
  | '-' :: rest => (true, rest)
  | '+' :: rest => (false, rest)
  | t => (false, t)

/-- Reads a whole number: blanks around it, a sign, digits with gaps. -/
def integer? (t : Text) : Option Int :=
  let (negative, digits) := signOf (trim (asciiDigits t))
  match dropDigitGaps none digits with
  | none => none
  | some ds =>
    if ds.isEmpty || !ds.all isAsciiDigit then none
    else some (if negative then -(natOfDigits ds : Int) else natOfDigits ds)

def ofNat (n : Nat) : Text :=
  Nat.toDigits 10 n

def ofInt (n : Int) : Text :=
  if n < 0 then '-' :: ofNat n.natAbs else ofNat n.natAbs

end Text
end SfcServer
