import SfcServer.Markup.Directive
import SfcServer.Markup.Document

/-!
# Regions of a document

Who answers a question about a position depends on what stands there: an expression of
the template, the script, plain markup of the template, or nothing of these.
-/

namespace SfcServer

inductive Region where
  | expression
  | script
  | markup
  | none
  deriving DecidableEq, Repr

namespace Region

def label : Region -> String
  | expression => "expression"
  | script => "script"
  | markup => "markup"
  | none => "none"

/--
Whether an offset in content lies between the braces of an interpolation: the nearest
braces before it open one, and the nearest ones after it close one.
-/
def inInterpolation (content : Text) (index : Nat) : Bool :=
  let before := content.take index
  let after := content.drop index
  let opening := "\x7b\x7b".toList
  let closing := "\x7d\x7d".toList
  match Text.lastIndexOf? opening before, Text.indexOf? closing after with
  | some opened, some closed =>
    let closedBefore := match Text.lastIndexOf? closing before with
      | some i => i > opened
      | Option.none => false
    let openedAfter := match Text.indexOf? opening after with
      | some i => i ≤ closed
      | Option.none => false
    !closedBefore && !openedAfter
  | _, _ => false

/-- Whether an offset lies in the value of an attribute, inside of its quotes if it has some. -/
def inValue (value : Token) (offset : Nat) : Bool :=
  match value.text with
  | [] => value.offset ≤ offset && offset ≤ value.stop
  | c :: rest =>
    if c = Text.singleQuote ∨ c = Text.doubleQuote then
      let closed := rest.getLast? = some c
      value.offset < offset && (offset < value.stop || !closed)
    else value.offset ≤ offset && offset ≤ value.stop

/-- The region of an offset among tokens, after the name of an attribute if there is one. -/
def ofTokens (offset : Nat) : Option Text -> List Token -> Region
  | _, [] => markup
  | name, t :: rest =>
    if t.offset > offset then markup
    else
      match t.kind with
      | .attributeName => ofTokens offset (some t.text) rest
      | .attributeValue =>
        if inValue t offset then
          if (name.map Directive.isBinding).getD false then expression else markup
        else ofTokens offset Option.none rest
      | .startTagClose => ofTokens offset Option.none rest
      | .startTagSelfClose => ofTokens offset Option.none rest
      | .content =>
        if offset ≤ t.stop && inInterpolation t.text (offset - t.offset) then expression
        else ofTokens offset name rest
      | _ => ofTokens offset name rest

end Region

/-- Whether an offset lies in the script section, its ends included. -/
def Document.inScript (d : Document) (offset : Nat) : Bool :=
  match d.script? with
  | some script =>
    script.startTagEnd.isSome && script.contentStart ≤ offset && offset ≤ script.contentStop
  | none => false

def Document.regionAt (d : Document) (t : Text) (offset : Nat) : Region :=
  if d.inScript offset then .script
  else
    match d.template? with
    | none => .none
    | some template =>
      if template.covers offset then
        let (start, stop) := match d.elementAt? offset with
          | some e => (e.start, e.stop)
          | none => (0, t.length)
        Region.ofTokens offset none (scan t start stop)
      else .none

end SfcServer
