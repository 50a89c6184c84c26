import SfcServer.Text.Basic

/-!
# Components

What the server knows of a component: the members that its template may use, the
components that its template may name, and where code can be added to its class.
Offsets count from the start of the script.
-/

namespace SfcServer

/-- What a member of a class is to its template. -/
inductive MemberKind where
  | model
  | prop
  | computed
  | data
  | method
  deriving DecidableEq, Repr

namespace MemberKind

def all : List MemberKind :=
  [model, prop, computed, data, method]

def label : MemberKind -> String
  | model => "model"
  | prop => "prop"
  | computed => "computed"
  | data => "data"
  | method => "method"

def role : MemberKind -> String
  | prop => "property"
  | kind => kind.label

end MemberKind

/-- A member of a class, with its offsets in the script. -/
structure Member where
  kind : MemberKind
  name : Text
  start : Nat
  stop : Nat
  nameStart : Nat
  type : Text
  /-- Unknown when the option is no literal. -/
  required : Option Bool
  event : Text
  documentation : Text
  deriving DecidableEq, Repr

/-- A component that a template may name, and the URI of its document if that is known. -/
structure Registration where
  name : Text
  specifier : Text
  uri : Option Text
  deriving DecidableEq, Repr

structure Component where
  uri : Text
  name : Text
  documentation : Text
  members : List Member
  registered : List Registration
  /-- Where a method can be added to the class, once the class has been read. -/
  insertion : Option Nat
  deriving DecidableEq, Repr

namespace Component

def unread (uri name : Text) : Component :=
  ⟨uri, name, [], [], [], none⟩

def ofKind (c : Component) (kind : MemberKind) : List Member :=
  c.members.filter (·.kind = kind)

def model? (c : Component) : Option Member :=
  (c.ofKind .model).head?

def find? (c : Component) (name : Text) : Option Member :=
  (MemberKind.all.flatMap c.ofKind).find? (·.name = name)

/-- The names that a template can use: one model, and the other members by kind. -/
def names (c : Component) : List Text :=
  (c.model?.toList ++ MemberKind.all.tail.flatMap c.ofKind).map (·.name)

end Component
end SfcServer
