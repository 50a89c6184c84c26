import SfcServer.Component.Basic
import SfcServer.Text.Letter

/-!
# Describing components

Texts shown for a component and its members.
-/

namespace SfcServer

def Text.code (t : Text) : Text :=
  Text.backtick :: t ++ [Text.backtick]

/-- The part of a member in its component, as in `(data) App.count`. -/
def Member.title (m : Member) (component : Text) : Text :=
  '(' :: m.kind.role.toList ++ ") ".toList ++ component ++ '.' :: m.name

namespace Component

def isNameChar (c : Char) : Bool :=
  Text.isWordChar c || c == '$'

/--
The display of a name in the template, where members are constants: a constant that
stands for a member is shown as that member.
-/
def describeDisplay (c : Component) (display : Text) : Text :=
  match Text.dropLead? "const ".toList display with
  | none => display
  | some rest =>
    let name := rest.takeWhile isNameChar
    if name.isEmpty then display
    else
      match c.find? name with
      | some m => m.title c.name ++ rest.drop name.length
      | none => display

def describeProp (m : Member) : Text :=
  "- ".toList ++ m.name.code ++ ": ".toList ++ m.type.code ++
    (if m.required = some true then " (required)".toList else []) ++
    if m.kind = .model then
      let event := if m.event.isEmpty then "input".toList else m.event
      " (v-model, event ".toList ++ Text.code event ++ [')']
    else []

def describe (c : Component) (tag : Text) : Text :=
  let props := c.model?.toList ++ c.ofKind .prop
  let title := "**".toList ++ tag ++ "**".toList
  let documentation := if c.documentation.isEmpty then [] else [c.documentation]
  let list := if props.isEmpty then []
    else [Text.joinWith ['\n'] ("**Props:**".toList :: props.map describeProp)]
  Text.joinWith "\n\n".toList (title :: documentation ++ list)

end Component
end SfcServer
