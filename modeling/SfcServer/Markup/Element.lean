import SfcServer.Markup.Token

/-!
# Elements

An element records where its tags stand in the text, its attributes in the order of
their first appearance, and the elements inside of it.

Walks over elements, such as the search for the innermost one, the collecting of expressions and
the writing of code, follow the nesting.  They are total here; it is assumed that no text nests
elements deeper than calls may be nested where the server runs, which is about a thousand.
-/

namespace SfcServer

/-- An attribute with its value as written, quotes included. -/
structure Attribute where
  name : Text
  value : Option Text
  deriving DecidableEq, Repr

/-- An element with its offsets, its attributes and the elements inside of it. -/
structure Element where
  tag : Text
  start : Nat
  stop : Nat
  /-- The offset after the `>` of the start tag. -/
  startTagEnd : Option Nat
  /-- The offset of the `</` of the end tag. -/
  endTagStart : Option Nat
  /-- Whether the element was ended by its own end tag, by `/>`, or needs no end tag. -/
  closed : Bool
  attributes : List Attribute
  children : List Element
  deriving Repr, Inhabited

/-! ## Attributes -/

namespace Attribute

/-- Gives an attribute a value; a new name goes to the end. -/
def set (name : Text) (value : Option Text) : List Attribute -> List Attribute
  | [] => [⟨name, value⟩]
  | a :: rest => if a.name = name then ⟨name, value⟩ :: rest else a :: set name value rest

def isQuote (c : Char) : Bool :=
  c == Text.doubleQuote || c == Text.singleQuote

/-- The value between the quotes.  A quote at the end is dropped whichever it is. -/
def unquote (raw : Option Text) : Text :=
  match raw with
  | none => []
  | some [] => []
  | some (c :: rest) =>
    if isQuote c then
      match rest.getLast? with
      | some d => if isQuote d then rest.dropLast else rest
      | none => rest
    else c :: rest

/-- The unquoted value of the attribute of a name, empty when it has none. -/
def textOf (name : Text) (attributes : List Attribute) : Text :=
  unquote ((attributes.find? (·.name == name)).bind (·.value))

end Attribute

/-! ## Spans -/

namespace Element

def contentStart (e : Element) : Nat :=
  e.startTagEnd.getD e.start

def contentStop (e : Element) : Nat :=
  e.endTagStart.getD e.stop

/-- Whether an offset lies in the span of an element, its first offset excluded. -/
def covers (e : Element) (offset : Int) : Bool :=
  (e.start : Int) < offset && offset ≤ (e.stop : Int)

/-- Whether an offset lies between the name of a tag and the `>` that closes it. -/
def inStartTag (e : Element) (offset : Int) : Bool :=
  (e.start : Int) < offset &&
    (match e.startTagEnd with
      | some stop => offset < (stop : Int)
      | none => true) &&
    (e.start : Int) + 1 + e.tag.length < offset

/-- The label of an element in an outline: its tag, its id and its classes. -/
def label (e : Element) : Text :=
  let id := Attribute.textOf "id".toList e.attributes
  let classes := Text.words (Attribute.textOf "class".toList e.attributes)
  e.tag ++ (if id.isEmpty then [] else '#' :: id) ++
    (if classes.isEmpty then [] else '.' :: Text.joinWith ['.'] classes)

/-! ## Walking -/

mutual

def preorder : Element -> List Element
  | ⟨tag, start, stop, startTagEnd, endTagStart, closed, attributes, children⟩ =>
    ⟨tag, start, stop, startTagEnd, endTagStart, closed, attributes, children⟩ ::
      preorderAll children

def preorderAll : List Element -> List Element
  | [] => []
  | e :: rest => preorder e ++ preorderAll rest

end

mutual

def innermost (offset : Int) : Element -> Element
  | ⟨tag, start, stop, startTagEnd, endTagStart, closed, attributes, children⟩ =>
    (innermostOf offset children).getD
      ⟨tag, start, stop, startTagEnd, endTagStart, closed, attributes, children⟩

/--
The innermost element at an offset among siblings.  Siblings follow each other, so
the last one that starts before the offset decides.
-/
def innermostOf (offset : Int) : List Element -> Option Element
  | [] => none
  | e :: rest =>
    if rest.any (fun later => (later.start : Int) < offset) then innermostOf offset rest
    else if e.covers offset then some (innermost offset e)
    else none

end

end Element
end SfcServer
