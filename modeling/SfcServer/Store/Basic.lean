import SfcServer.Keyed
import SfcServer.Projection

/-!
# Document store

The store keeps the text of every open document, and of every component that was read
from a file.  What is derived from a text is kept with it: its markup, its component
and its projection.  It is dropped when the text changes, or when a component that the
document registers may have changed.
-/

namespace SfcServer

/-- What has been derived from a text so far. -/
structure Derived where
  markup : Option Document := none
  /-- Set once the script has been read, also if it declares no component. -/
  component : Option (Option Component) := none
  /-- Set once the projection has been built, also if there is none. -/
  projection : Option (Option Projection) := none

/-- A document in the store: its text, and what has been derived from it. -/
structure Entry where
  text : Text
  version : Int := 0
  isOpen : Bool := true
  derived : Derived := {}
  /-- How many projections have been built. -/
  generation : Nat := 0

namespace Entry

def lines (e : Entry) : Lines :=
  Lines.ofText e.text

def invalidate (e : Entry) : Entry :=
  { e with derived := {} }

/-- Whether the component in an entry is known to register the component of a document. -/
def registers (e : Entry) (uri : Text) : Bool :=
  match e.derived.component with
  | some (some c) => c.registered.any (·.uri = some uri)
  | _ => false

end Entry

abbrev Store := Keyed Entry

namespace Store

def entryOf? (s : Store) (uri : Text) : Option Entry :=
  Keyed.get? uri s

def openUris (s : Store) : List Text :=
  (s.filter fun (_, e) => e.isOpen).map Prod.fst

def dependents (s : Store) (uri : Text) : List Text :=
  (s.filter fun (other, e) => other ≠ uri && e.registers uri).map Prod.fst

def invalidateDependents (s : Store) (uri : Text) : Store :=
  s.map fun (other, e) =>
    if other ≠ uri && e.registers uri then (other, e.invalidate) else (other, e)

/-! ## Changes -/

def openText (s : Store) (uri text : Text) (version : Int) : Store :=
  let entry : Entry := match s.entryOf? uri with
    | some e => { e with text := text, version := version, isOpen := true, derived := {} }
    | none => { text := text, version := version }
  invalidateDependents (Keyed.put uri entry s) uri

def updateText (s : Store) (uri text : Text) (version : Int) : List Text × Store :=
  match s.entryOf? uri with
  | none =>
    let s : Store := s.openText uri text version
    (uri :: s.dependents uri, s)
  | some e =>
    let s : Store := Keyed.put uri { e with text := text, version := version, derived := {} } s
    (uri :: s.dependents uri, s.invalidateDependents uri)

def close (s : Store) (uri : Text) : Store :=
  invalidateDependents (Keyed.erase uri s) uri

/-- Drops what was read from a file, and lists the dependents. An open document is kept. -/
def forget (s : Store) (uri : Text) : List Text × Store :=
  match s.entryOf? uri with
  | some e =>
    if e.isOpen then ([], s)
    else
      let s : Store := Keyed.erase uri s
      (s.dependents uri, s.invalidateDependents uri)
  | none => (s.dependents uri, s.invalidateDependents uri)

end Store
end SfcServer
