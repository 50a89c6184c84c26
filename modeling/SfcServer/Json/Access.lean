import SfcServer.Fault
import SfcServer.Json.Basic
import SfcServer.Text.Basic

/-!
# Access to values from outside

The engine may answer with values of any shape.  These readers take a part of a value,
or say in which way the value is not what was expected.
-/

namespace SfcServer
namespace Json

def memberOf (name : String) : Json -> Except Fault (Option Json)
  | .obj members => .ok (lookup name members)
  | _ => .error .wrongShape

def memberOr (j : Json) (name : String) (default : Json) : Except Fault Json :=
  (memberOf name j).map (·.getD default)

def firstPresent (values : List Json) : Option Json :=
  values.find? isTruthy

/-- The values that a value holds: items, names of members, or characters. -/
def elements : Json -> Except Fault (List Json)
  | .arr items => .ok items
  | .obj members => .ok (members.map fun (name, _) => .str name)
  | .str s => .ok (s.toList.map fun c => ofText [c])
  | _ => .error .wrongKind

/-- Whether a value holds a name: as a member, an item, or a part of a text. -/
def holds (name : String) : Json -> Except Fault Bool
  | .obj members => .ok (lookup name members).isSome
  | .arr items => .ok (items.any fun item => match item with
      | .str s => s = name
      | _ => false)
  | .str s => .ok (Text.indexOf? name.toList s.toList).isSome
  | _ => .error .wrongKind

def textOrNone : Json -> Except Fault (Option Text)
  | .null => .ok none
  | .str s => .ok (some s.toList)
  | _ => .error .wrongKind

def textOf : Json -> Except Fault Text
  | .str s => .ok s.toList
  | _ => .error .wrongKind

def oneOf? (numbers : List Nat) (j : Json) : Option Nat :=
  numbers.find? fun n => j.equalsInt n

def isKey : Json -> Bool
  | .arr _ => false
  | .obj _ => false
  | _ => true

end Json
end SfcServer
