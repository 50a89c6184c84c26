import SfcServer.Text.Basic

/-!
# Keyed rows

Rows found by a text and kept in the order in which their keys were first added.
-/

namespace SfcServer

abbrev Keyed (α : Type) := List (Text × α)

namespace Keyed

variable {α : Type}

def get? (key : Text) : Keyed α -> Option α
  | [] => none
  | (other, value) :: rest => if other = key then some value else get? key rest

/-- Replaces the row of a key where it stands, or adds one at the end. -/
def put (key : Text) (value : α) : Keyed α -> Keyed α
  | [] => [(key, value)]
  | (other, old) :: rest =>
    if other = key then (other, value) :: rest else (other, old) :: put key value rest

def erase (key : Text) : Keyed α -> Keyed α
  | [] => []
  | (other, value) :: rest => if other = key then rest else (other, value) :: erase key rest

def contains (key : Text) (rows : Keyed α) : Bool :=
  (get? key rows).isSome

def keys (rows : Keyed α) : List Text :=
  rows.map Prod.fst

/-- Rows given in order; later ones replace earlier ones of the same key. -/
def ofList (rows : List (Text × α)) : Keyed α :=
  rows.foldl (fun done (key, value) => put key value done) []

end Keyed
end SfcServer
