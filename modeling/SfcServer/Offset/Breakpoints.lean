/-!
# Breakpoints

Generated code is tied to the document it came from by pairs of offsets at which
corresponding parts begin.  An offset is moved by its distance from the
nearest breakpoint at or before it.  The parts may be generated in another order
than they are written, so each direction looks the pairs up in its own order.
-/

namespace SfcServer

/-- A pair of offsets at which corresponding parts begin. -/
structure Breakpoint where
  source : Int
  target : Int
  deriving DecidableEq, Repr

abbrev Breakpoints := List Breakpoint

namespace Breakpoints

inductive LookupError where
  | lengthMismatch
  deriving DecidableEq, Repr

def LookupError.message : LookupError -> String
  | .lengthMismatch =>
    "PositionMap: the length of `source` must be equal to the length of `target`"

def ofOffsets (source target : List Int) : Except LookupError Breakpoints :=
  if source.length = target.length then
    .ok (List.zipWith Breakpoint.mk source target)
  else .error .lengthMismatch

def ascending (pairs : List (Int × Int)) : List (Int × Int) :=
  pairs.mergeSort fun a b => a.1 < b.1 || (a.1 == b.1 && a.2 ≤ b.2)

/-- The last of the ascending pairs that starts at or before an offset, else the first. -/
def nearest? (offset : Int) (pairs : List (Int × Int)) : Option (Int × Int) :=
  match (pairs.takeWhile (·.1 ≤ offset)).getLast? with
  | some pair => some pair
  | none => pairs.head?

def shift (pairs : List (Int × Int)) (offset : Int) : Int :=
  match nearest? offset pairs with
  | some (start, target) => target + (offset - start)
  | none => offset

def forward (b : Breakpoints) : List (Int × Int) :=
  ascending (b.map fun p => (p.source, p.target))

def backward (b : Breakpoints) : List (Int × Int) :=
  ascending (b.map fun p => (p.target, p.source))

def toTarget (b : Breakpoints) (offset : Int) : Int :=
  shift b.forward offset

def toSource (b : Breakpoints) (offset : Int) : Int :=
  shift b.backward offset

def describe (b : Breakpoints) : String :=
  let list (offsets : List Int) : String :=
    "[" ++ ", ".intercalate (offsets.map fun (n : Int) => toString n) ++ "]"
  "PositionMap(source=" ++ list (b.map (·.source)) ++ ", target=" ++ list (b.map (·.target)) ++ ")"

end Breakpoints
end SfcServer
