import SfcServer.Number.Double

/-!
# JSON values

Messages to and from an engine, options of an editor and results of requests are
JSON values.  Whole numbers keep their full size and are kept apart from doubles;
an object lists its members in the order in which their names first appeared.
-/

namespace SfcServer

inductive Json where
  | null
  | bool (b : Bool)
  | int (n : Int)
  | real (x : Double)
  | str (s : String)
  | arr (items : List Json)
  | obj (members : List (String × Json))
  deriving Repr, Inhabited

namespace Json

/-! ## Members -/

def setMember (name : String) (value : Json) : List (String × Json) -> List (String × Json)
  | [] => [(name, value)]
  | (other, old) :: rest =>
    if other = name then (name, value) :: rest else (other, old) :: setMember name value rest

/-- The members of an object whose later members replace earlier ones of the same name. -/
def ofMembers (members : List (String × Json)) : Json :=
  .obj (members.foldl (fun done (name, value) => setMember name value done) [])

def lookup (name : String) : List (String × Json) -> Option Json
  | [] => none
  | (other, value) :: rest => if other = name then some value else lookup name rest

def member? (name : String) : Json -> Option Json
  | .obj members => lookup name members
  | _ => none

/-! ## Truth and equality -/

def isTruthy : Json -> Bool
  | .null => false
  | .bool b => b
  | .int n => n != 0
  | .real x => !x.isZero
  | .str s => !s.isEmpty
  | .arr items => !items.isEmpty
  | .obj members => !members.isEmpty

/-- Whether a value is equal to a whole number; truth values count as one and zero. -/
def equalsInt (n : Int) : Json -> Bool
  | .bool b => (if b then 1 else 0) == n
  | .int m => m == n
  | .real x => x.toInt? == some n
  | _ => false

/-- The whole number that a value stands for as a count or an index. -/
def asInt? : Json -> Option Int
  | .bool b => some (if b then 1 else 0)
  | .int n => some n
  | _ => none

/-! ## Building -/

def ofNat (n : Nat) : Json := .int n

def ofText (t : List Char) : Json := .str (String.ofList t)

def ofOption (f : α -> Json) : Option α -> Json
  | none => .null
  | some a => f a

end Json
end SfcServer
