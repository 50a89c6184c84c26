/-!
# Double precision numbers

A double is kept as the exact value it stands for, so that comparing, adding and
rounding are plain arithmetic on whole numbers.  A finite double is
`mantissa * 2 ^ exponent` with a mantissa below `2 ^ 53` and an exponent of at
least `-1074`; of the forms with one value the one with the least exponent is used.
-/

namespace SfcServer

inductive Double where
  | nan
  | infinite (negative : Bool)
  | finite (negative : Bool) (mantissa : Nat) (exponent : Int)
  deriving DecidableEq, Repr

namespace Double

def zero : Double := .finite false 0 (-1074)

def pow2 (n : Nat) : Nat := Nat.pow 2 n

def pow10 (n : Nat) : Nat := Nat.pow 10 n

/-- A quotient rounded to the nearest whole number, a half to the even neighbour. -/
def roundQuotient (num den : Nat) : Nat :=
  let q := num / den
  let r := num % den
  if 2 * r < den then q
  else if den < 2 * r then q + 1
  else if q % 2 = 0 then q else q + 1

/-- `num / (den * 2 ^ e)`, as a quotient of whole numbers. -/
def scale (num den : Nat) (e : Int) : Nat × Nat :=
  if 0 ≤ e then (num, den * pow2 e.toNat) else (num * pow2 (-e).toNat, den)

def ofRatio (negative : Bool) (num den : Nat) : Double :=
  if num = 0 then .finite negative 0 (-1074)
  else
    let guess : Int := max ((Nat.log2 num : Int) - Nat.log2 den - 53) (-1074)
    let (n, d) := scale num den guess
    let e := if pow2 53 ≤ n / d then guess + 1 else guess
    let (n, d) := scale num den e
    let m := roundQuotient n d
    let (m, e) := if m = pow2 53 then (pow2 52, e + 1) else (m, e)
    if 971 < e then .infinite negative else .finite negative m e

def ofDecimal (negative : Bool) (digits : Nat) (exponent : Int) : Double :=
  if digits = 0 then .finite negative 0 (-1074)
  else if 400 < exponent then .infinite negative
  else if exponent < -(400 + (Nat.log2 digits : Int)) then .finite negative 0 (-1074)
  else if 0 ≤ exponent then ofRatio negative (digits * pow10 exponent.toNat) 1
  else ofRatio negative digits (pow10 (-exponent).toNat)

/-- The double nearest to a whole number, when it is not too large for one. -/
def ofInt? (n : Int) : Option Double :=
  match ofRatio (n < 0) n.natAbs 1 with
  | .infinite _ => none
  | x => some x

/-- A finite double times `2 ^ 1074` is a whole number. -/
def units (negative : Bool) (mantissa : Nat) (exponent : Int) : Int :=
  let size := mantissa * pow2 (exponent + 1074).toNat
  if negative then -(size : Int) else size

/-- The order of the numbers; nothing is below, above or at a NaN. -/
def compare? : Double -> Double -> Option Ordering
  | .nan, _ => none
  | _, .nan => none
  | .infinite a, .infinite b =>
    some (if a = b then .eq else if a then .lt else .gt)
  | .infinite a, .finite _ _ _ => some (if a then .lt else .gt)
  | .finite _ _ _, .infinite b => some (if b then .gt else .lt)
  | .finite s m e, .finite s' m' e' => some (compare (units s m e) (units s' m' e'))

def ble (x y : Double) : Bool :=
  match compare? x y with
  | some .lt => true
  | some .eq => true
  | _ => false

def blt (x y : Double) : Bool :=
  compare? x y == some .lt

/-- Equality of numbers: both zeros are equal, and a NaN equals nothing. -/
def same (x y : Double) : Bool :=
  compare? x y == some .eq

def isZero : Double -> Bool
  | .finite _ 0 _ => true
  | _ => false

def add : Double -> Double -> Double
  | .nan, _ => .nan
  | _, .nan => .nan
  | .infinite a, .infinite b => if a = b then .infinite a else .nan
  | .infinite a, .finite _ _ _ => .infinite a
  | .finite _ _ _, .infinite b => .infinite b
  | .finite s m e, .finite s' m' e' =>
    let total := units s m e + units s' m' e'
    if total = 0 then .finite (s && s') 0 (-1074)
    else ofRatio (total < 0) total.natAbs (pow2 1074)

def toInt? : Double -> Option Int
  | .finite s m e =>
    let n := units s m e
    if n % (pow2 1074 : Int) = 0 then some (n / (pow2 1074 : Int)) else none
  | _ => none

def truncate? : Double -> Option Int
  | .finite s m e => some (Int.tdiv (units s m e) (pow2 1074))
  | _ => none

end Double
end SfcServer
