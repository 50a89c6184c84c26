import SfcServer.Text.Numeral
import SfcServer.Number.Double

/-!
# Decimal text of doubles

A double is written with the fewest digits that read back as itself; of those the
ones nearest to it.  Where the point and the exponent go is a matter of layout.
-/

namespace SfcServer
namespace Double

/-! ## Shortest digits -/

/-- The number of digits before the point; not positive when the value is below one tenth. -/
def magnitude (num den : Nat) : Nat -> Int
  | 0 => 0
  | fuel + 1 =>
    if den ≤ num then (Text.ofNat (num / den)).length
    else magnitude (num * 10) den fuel - 1

def ratio (mantissa : Nat) (exponent : Int) : Nat × Nat :=
  if 0 ≤ exponent then (mantissa * pow2 exponent.toNat, 1)
  else (mantissa, pow2 (-exponent).toNat)

/-- The digits of `num / den` just below and just above, at a decimal exponent. -/
def gridNeighbours (num den : Nat) (place : Int) : Nat × Nat × Bool :=
  let (n, d) := if 0 ≤ place then (num, den * pow10 place.toNat)
    else (num * pow10 (-place).toNat, den)
  (n / d, n / d + 1, 2 * (n % d) ≤ d)

/--
The least number of digits, from `count` on, for which a neighbour on the grid reads
back; of two that do, the nearer.
-/
def shortestFrom (mantissa : Nat) (exponent : Int) (count : Nat) : Nat -> Nat × Int
  | 0 => (mantissa, 0)
  | fuel + 1 =>
    let (num, den) := ratio mantissa exponent
    let place := magnitude num den 400 - count
    let (below, above, belowIsNearer) := gridNeighbours num den place
    let hits (digits : Nat) : Bool :=
      decide (ofDecimal false digits place = .finite false mantissa exponent)
    if hits below && (belowIsNearer || !hits above) then (below, place)
    else if hits above then (above, place)
    else shortestFrom mantissa exponent (count + 1) fuel

def dropTrailingZeros (digits : Nat) (place : Int) : Nat -> Nat × Int
  | 0 => (digits, place)
  | fuel + 1 =>
    if digits % 10 = 0 ∧ digits ≠ 0 then dropTrailingZeros (digits / 10) (place + 1) fuel
    else (digits, place)

def shortest (mantissa : Nat) (exponent : Int) : Nat × Int :=
  if mantissa = 0 then (0, 0)
  else
    let (digits, place) := shortestFrom mantissa exponent 1 17
    dropTrailingZeros digits place 400

/-! ## Layout -/

structure Spelling where
  nan : Text
  infinity : Text

def shown : Spelling := ⟨"nan".toList, "inf".toList⟩

def encoded : Spelling := ⟨"NaN".toList, "Infinity".toList⟩

/--
A point after `before` digits; positional from `0.0001` up to sixteen digits before
the point.
-/
def layout (digits : Text) (before : Int) : Text :=
  if -4 < before ∧ before ≤ 16 then
    if before ≤ 0 then "0.".toList ++ List.replicate (-before).toNat '0' ++ digits
    else if digits.length ≤ before.toNat then
      digits ++ List.replicate (before.toNat - digits.length) '0' ++ ".0".toList
    else digits.take before.toNat ++ '.' :: digits.drop before.toNat
  else
    let power := before - 1
    let size := Text.ofNat power.natAbs
    let lead := match digits with
      | [] => []
      | [d] => [d]
      | d :: rest => d :: '.' :: rest
    lead ++ 'e' :: (if power < 0 then '-' else '+') ::
      ((if size.length < 2 then ['0'] else []) ++ size)

def write (style : Spelling) : Double -> Text
  | .nan => style.nan
  | .infinite negative => (if negative then ['-'] else []) ++ style.infinity
  | .finite negative mantissa exponent =>
    let (digits, place) := shortest mantissa exponent
    let ds := Text.ofNat digits
    (if negative then ['-'] else []) ++
      (if mantissa = 0 then "0.0".toList else layout ds (ds.length + place))

/-! ## Reading -/

/-- The parts of an unsigned decimal: whole digits, fraction digits and exponent. -/
structure Literal where
  whole : Text
  fraction : Text
  power : Int

def Literal.value (l : Literal) (negative : Bool) : Double :=
  ofDecimal negative (Text.natOfDigits (l.whole ++ l.fraction)) (l.power - l.fraction.length)

/-- An exponent: its mark, an optional sign, and digits up to the end. -/
def exponent? (t : Text) : Option Int :=
  match t with
  | [] => some 0
  | mark :: rest =>
    if mark = 'e' ∨ mark = 'E' then
      let (negative, digits) := Text.signOf rest
      if digits.isEmpty || !digits.all Text.isAsciiDigit then none
      else some (if negative then -(Text.natOfDigits digits : Int) else Text.natOfDigits digits)
    else none

def literal? (t : Text) : Option Literal :=
  let whole := t.takeWhile Text.isAsciiDigit
  let rest := t.dropWhile Text.isAsciiDigit
  let (fraction, rest) := match rest with
    | '.' :: after => (after.takeWhile Text.isAsciiDigit, after.dropWhile Text.isAsciiDigit)
    | _ => ([], rest)
  if whole.isEmpty && fraction.isEmpty then none
  else (exponent? rest).map fun power => ⟨whole, fraction, power⟩

/-- Reads a number that a person wrote: blanks around it, a sign, digits with gaps, or a word. -/
def ofText? (t : Text) : Option Double :=
  let (negative, body) := Text.signOf (Text.trim (Text.asciiDigits t))
  let word := body.map Char.toLower
  if word = "inf".toList ∨ word = "infinity".toList then some (.infinite negative)
  else if word = "nan".toList then some .nan
  else
    match Text.dropDigitGaps none body with
    | none => none
    | some digits => (literal? digits).map (·.value negative)

end Double
end SfcServer
