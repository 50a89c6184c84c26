import SfcServer.Text.Basic

/-!
# Lines

An editor addresses a place by line and column, this library by offset.  A line
ends only at a line feed.  Coordinates that lie outside the text are moved to the
nearest place that exists.
-/

namespace SfcServer

/-- A place in a text: a line and a column, both counted from zero. -/
structure Place where
  line : Int
  column : Int
  deriving DecidableEq, Repr

/-- The offsets at which the lines of a text start, and its length. -/
structure Lines where
  starts : List Nat
  size : Nat
  deriving DecidableEq, Repr

namespace Lines

/-- The starts of the lines after the first, in a text that begins at `offset`. -/
def startsFrom (offset : Nat) : Text -> List Nat
  | [] => []
  | c :: rest =>
    if c = '\n' then (offset + 1) :: startsFrom (offset + 1) rest
    else startsFrom (offset + 1) rest

def ofText (t : Text) : Lines where
  starts := 0 :: startsFrom 0 t
  size := t.length

def stopOf (l : Lines) (line : Nat) : Nat :=
  match l.starts[line + 1]? with
  | some next => next - 1
  | none => l.size

def offsetAt (l : Lines) (place : Place) : Nat :=
  if place.line < 0 then 0
  else
    match l.starts[place.line.toNat]? with
    | none => l.size
    | some start =>
      (max (min ((start : Int) + place.column) (l.stopOf place.line.toNat)) start).toNat

def clamp (l : Lines) (offset : Int) : Nat :=
  (max (min offset l.size) 0).toNat

/-- The place of an offset: the last line that starts at or before it. -/
def placeAt (l : Lines) (offset : Int) : Place :=
  let offset := l.clamp offset
  let passed := l.starts.takeWhile (· ≤ offset)
  { line := (passed.length : Int) - 1
    column := (offset : Int) - (passed.getLast?.getD 0 : Nat) }

end Lines
end SfcServer
