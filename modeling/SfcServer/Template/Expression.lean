import SfcServer.Markup.Document
import SfcServer.Markup.Directive

/-!
# Template expressions

The dynamic parts of a template are the values of bound attributes and the
interpolations between double braces.  Each belongs to the element whose
start tag or content holds it, and keeps the offsets at which it was written.
-/

namespace SfcServer

/-- What an expression is to the element it stands in. -/
inductive ExpressionKind where
  | condition
  | elseCondition
  | otherwise
  | loop
  | binding
  | interpolation
  deriving DecidableEq, Repr

def ExpressionKind.label : ExpressionKind -> String
  | .condition => "if"
  | .elseCondition => "else-if"
  | .otherwise => "else"
  | .loop => "for"
  | .binding => "binding"
  | .interpolation => "interpolation"

def ExpressionKind.ofName (name : Text) : ExpressionKind :=
  if name = "v-if".toList then .condition
  else if name = "v-else-if".toList then .elseCondition
  else if name = "v-else".toList then .otherwise
  else if name = "v-for".toList then .loop
  else .binding

/-- A dynamic part of a template; `name` is the attribute, empty for interpolations. -/
structure Expression where
  kind : ExpressionKind
  start : Nat
  stop : Nat
  text : Text
  name : Text
  deriving DecidableEq, Repr

namespace Expression

/-! ## Interpolations -/

def splitAtClose : Text -> Option (Text × Text)
  | '\x7d' :: '\x7d' :: rest => some ([], rest.dropWhile (· == '\x7d'))
  | c :: rest => (splitAtClose rest).map fun (before, after) => (c :: before, after)
  | [] => none

/--
The interpolations of a content token: the offset and the trimmed text of each.
The first `passed` characters belong to an interpolation already found.
-/
def interpolationsFrom (offset : Nat) : Nat -> Text -> List (Nat × Text)
  | _, [] => []
  | passed + 1, _ :: rest => interpolationsFrom (offset + 1) passed rest
  | 0, c :: rest =>
    match c, rest with
    | '\x7b', '\x7b' :: body =>
      match splitAtClose body with
      | some (inside, after) =>
        (offset + 2 + (inside.takeWhile Text.isBlank).length, Text.trim inside) ::
          interpolationsFrom (offset + 1) (rest.length - after.length) rest
      | none => interpolationsFrom (offset + 1) 0 rest
    | _, _ => interpolationsFrom (offset + 1) 0 rest

def ofInterpolation (found : Nat × Text) : Expression :=
  ⟨.interpolation, found.1, found.1 + found.2.length, found.2, []⟩

def ofContent (t : Token) : List Expression :=
  (interpolationsFrom t.offset 0 t.text).map ofInterpolation

/-! ## Attributes -/

/-- The value of a bound attribute, without its quotes; the closing one may be missing. -/
def ofValue (name : Text) (value : Token) : Expression :=
  let quoted := match value.text.head? with
    | some c => Attribute.isQuote c
    | none => false
  let closed := quoted && 1 < value.text.length && value.text.getLast? == value.text.head?
  let start := value.offset + if quoted then 1 else 0
  let stop := value.stop - if closed then 1 else 0
  ⟨ExpressionKind.ofName name, start, stop,
    Text.slice value.text (start - value.offset) (stop - value.offset), name⟩

/-- The expression of an attribute whose name ends at `nameStop`; only an `else` needs no value. -/
def ofAttribute (name : Text) (value : Option Token) (nameStop : Nat) : Option Expression :=
  if ExpressionKind.ofName name = .otherwise then
    some ⟨.otherwise, nameStop, nameStop, [], name⟩
  else value.map (ofValue name)

/-! ## Segments -/

/-- How far the reader of a start tag has come. -/
inductive TagReading where
  /-- In a start tag none of whose attributes is bound. -/
  | plain
  /-- In a start tag, after a bound attribute that may get a value, and the end of its name. -/
  | bound (name : Option Text) (nameStop : Nat)
  /-- Past the start tag. -/
  | past
  deriving DecidableEq, Repr

def readToken (reading : TagReading) (t : Token) : List Expression × TagReading :=
  match reading with
  | .past => (if t.kind = .content then ofContent t else [], .past)
  | .plain =>
    ([], if t.kind = .startTagClose ∨ t.kind = .startTagSelfClose then .past else .plain)
  | .bound name nameStop =>
    let valueless := (name.bind fun n => ofAttribute n none nameStop).toList
    match t.kind with
    | .attributeName =>
      (valueless, .bound (if Directive.isBinding t.text then some t.text else none) t.stop)
    | .startTagClose => (valueless, .past)
    | .startTagSelfClose => (valueless, .past)
    | .attributeValue =>
      ((name.bind fun n => ofAttribute n (some t) nameStop).toList, .bound none nameStop)
    | _ => ([], .bound name nameStop)

def readTokens (reading : TagReading) : List Token -> List Expression
  | [] => []
  | t :: rest =>
    let (found, reading) := readToken reading t
    found ++ readTokens reading rest

end Expression

/-! ## Elements -/

namespace Element

def isStatic (e : Element) : Bool :=
  !e.attributes.any fun a => Directive.isBinding a.name

def startReading (e : Element) : Expression.TagReading :=
  if e.isStatic then .plain else .bound none e.start

end Element

/-- Something that stands between the segments of an element, with its offsets. -/
structure Placed (α : Type) where
  start : Nat
  stop : Nat
  value : α

/-- What an element holds directly: its own expressions, and what its children came to. -/
inductive Item (α : Type) where
  | expression (x : Expression)
  | child (value : α)

namespace Item

variable {α : Type}

def expression? : Item α -> Option Expression
  | .expression x => some x
  | .child _ => none

def ofSegment (t : Text) (reading : Expression.TagReading) (start stop : Nat) : List (Item α) :=
  (Expression.readTokens reading (scan t start stop)).map .expression

def among (t : Text) (reading : Expression.TagReading) (start stop : Nat) :
    List (Placed α) -> List (Item α)
  | [] => ofSegment t reading start stop
  | c :: rest =>
    ofSegment t reading start c.start ++
      .child c.value :: among t .past (max start c.stop) stop rest

end Item

namespace Element

variable {α : Type}

def itemsWith (t : Text) (e : Element) (children : List (Placed α)) : List (Item α) :=
  Item.among t e.startReading e.start e.contentStop children

mutual

def foldItems (t : Text) (f : List (Item α) -> α) : Element -> α
  | ⟨tag, start, stop, startTagEnd, endTagStart, closed, attributes, children⟩ =>
    f (itemsWith t ⟨tag, start, stop, startTagEnd, endTagStart, closed, attributes, children⟩
      (foldChildren t f children))

def foldChildren (t : Text) (f : List (Item α) -> α) : List Element -> List (Placed α)
  | [] => []
  | e :: rest => ⟨e.start, e.stop, foldItems t f e⟩ :: foldChildren t f rest

end

/-! ## Collecting -/

def ownExpressions (t : Text) (e : Element) : List Expression :=
  (itemsWith t e (e.children.map fun c => ⟨c.start, c.stop, ()⟩)).filterMap Item.expression?

def flatten (items : List (Item (List Expression))) : List Expression :=
  items.flatMap fun
    | .expression x => [x]
    | .child xs => xs

def expressions (t : Text) (e : Element) : List Expression :=
  foldItems t flatten e

end Element
end SfcServer
