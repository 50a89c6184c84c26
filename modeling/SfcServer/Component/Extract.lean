import SfcServer.Component.Basic
import SfcServer.Component.Documentation
import SfcServer.Keyed
import SfcServer.Script.Tree
import SfcServer.Uri.File

/-!
# Extracting a component from its script

The class that a script exports by default is the component.  Its fields, methods and
getters are members; the decorators `Model` and `Prop` say more of a field, and the
decorator of the class registers other components.
-/

namespace SfcServer

/-! ## Values -/

def Text.unquoted (t : Text) : Text :=
  (t.drop 1).dropLast

namespace SyntaxNode

/-- The value of a string, or of a template in which nothing is substituted. -/
def stringValue? (source : Text) (n : SyntaxNode) : Option Text :=
  if n.kind = "string" ∨ n.kind = "template_string" ∧
      n.namedChildren.all (·.kind ≠ "template_substitution") then
    some (Text.unquoted (n.textIn source))
  else none

def documentation (source : Text) (n : SyntaxNode) : Text :=
  if n.kind = "comment" then Documentation.ofComment (n.textIn source) else []

def arguments (n : SyntaxNode) : List SyntaxNode :=
  n.namedChildren.filter (·.kind ≠ "comment")

/-- A property of an object with its value, which it can also be itself. -/
def property? (source : Text) (n : SyntaxNode) : Option (Text × SyntaxNode) :=
  if n.kind = "pair" then do
    let key ← n.childOf? "key"
    let value ← n.childOf? "value"
    return ((key.stringValue? source).getD (key.textIn source), value)
  else if n.kind = "shorthand_property_identifier" then some (n.textIn source, n)
  else none

/-- The properties of an object; a repeated one keeps its place and its last value. -/
def properties (source : Text) (n : SyntaxNode) : Keyed SyntaxNode :=
  Keyed.ofList (n.namedChildren.filterMap (property? source))

end SyntaxNode

/-! ## Decorators -/

/-- A decorator, and the arguments it is called with. -/
structure Decorator where
  name : Text
  arguments : List SyntaxNode

/-- What a decorator is made of, and the arguments if it is a call. -/
def SyntaxNode.decorating (n : SyntaxNode) : Option SyntaxNode × List SyntaxNode :=
  match n.arguments.head? with
  | none => (none, [])
  | some x =>
    if x.kind = "call_expression" then
      (x.childOf? "function", ((x.childOf? "arguments").map SyntaxNode.arguments).getD [])
    else (some x, [])

def SyntaxNode.lastName? (n : SyntaxNode) : Option SyntaxNode :=
  if n.kind = "member_expression" then n.childOf? "property" else some n

def Decorator.ofNode (source : Text) (n : SyntaxNode) : Decorator where
  name := ((n.decorating.1.bind SyntaxNode.lastName?).map (·.textIn source)).getD []
  arguments := n.decorating.2

def SyntaxNode.decorators (n : SyntaxNode) : List SyntaxNode :=
  n.children.filter (·.kind = "decorator")

structure MemberOptions where
  type : Text := []
  required : Option Bool := some false
  event : Text := []

namespace MemberOptions

def ofValue (source : Text) (n : SyntaxNode) : MemberOptions :=
  if n.kind = "object" then
    let entries := n.properties source
    let type := match entries.get? "type".toList with
      | some x => if x.kind = "identifier" then x.textIn source else []
      | none => []
    let required := match entries.get? "required".toList with
      | some x =>
        if x.kind = "true" then some true else if x.kind = "false" then some false else none
      | none => some false
    { type := type, required := required }
  else if n.kind = "identifier" then { type := n.textIn source }
  else {}

def ofProp (source : Text) (d : Decorator) : MemberOptions :=
  (d.arguments.head?.map (ofValue source)).getD {}

/-- The options of a model, whose first argument is the name of an event. -/
def ofModel (source : Text) (d : Decorator) : MemberOptions :=
  let event := (d.arguments.head?.bind (·.stringValue? source)).getD []
  { (d.arguments.tail.head?.map (ofValue source)).getD {} with event := event }

end MemberOptions

def fieldRole (source : Text) (decorators : List Decorator) : MemberKind × MemberOptions :=
  let named (name : String) := decorators.find? (·.name = name.toList)
  match named "Model", named "Prop" with
  | some d, _ => (.model, .ofModel source d)
  | none, some d => (.prop, .ofProp source d)
  | none, none => (.data, {})

/-! ## Members -/

def ascribedType (ascription : Text) : Text :=
  Text.trim (ascription.dropWhile (· == ':'))

def firstNonEmpty (candidates : List Text) : Text :=
  (candidates.find? (!·.isEmpty)).getD []

/-- The name that a node gives to a member, and where it stands; a computed name is none. -/
def SyntaxNode.memberName (source : Text) (n : SyntaxNode) : Text × Nat :=
  if n.kind = "string" then (Text.unquoted (n.textIn source), n.startIn source + 1)
  else if n.kind = "computed_property_name" then ([], n.startIn source)
  else (n.textIn source, n.startIn source)

/-- Where an element of a class begins with its decorators, and its documentation. -/
structure ElementFrame where
  decorators : List Decorator
  start : Nat
  documentation : Text

def SyntaxNode.member? (source : Text) (frame : ElementFrame) (n : SyntaxNode) : Option Member := do
  guard (n.children.all fun x => x.kind ≠ "static" ∧ x.kind ≠ "static get")
  let name := (← n.childOf? "name").memberName source
  guard (!name.1.isEmpty)
  let make (kind : MemberKind) (type : Text) (options : MemberOptions) : Member :=
    ⟨kind, name.1, frame.start, n.stopIn source, name.2,
      firstNonEmpty [options.type, type, "unknown".toList], options.required, options.event,
      frame.documentation⟩
  if n.kind = "method_definition" then
    match n.children.find? fun x => x.kind = "get" ∨ x.kind = "set" with
    | some x => if x.kind = "get" then return make .computed [] {} else none
    | none =>
      guard (name.1 ≠ "constructor".toList)
      return make .method [] {}
  else if n.kind = "public_field_definition" then
    let (kind, options) := fieldRole source frame.decorators
    return make kind (((n.childOf? "type").map fun x => ascribedType (x.textIn source)).getD [])
      options
  else none

/-! ## Class bodies -/

structure BodyReader where
  members : List Member := []
  documentation : Text := []
  /-- Decorators of an element that has not come yet. -/
  pending : List SyntaxNode := []
  /-- The end of the last element, or of a separator after it. -/
  last : Option Nat := none
  /-- Whether something has to separate the last element from the next one. -/
  unended : Bool := false
  afterElement : Bool := false

namespace BodyReader

def elementKinds : List String :=
  ["method_definition", "public_field_definition", "method_signature",
    "abstract_method_signature", "index_signature", "class_static_block"]

def needsSeparator (kind : String) : Bool :=
  !(["method_definition", "class_static_block"].contains kind)

def frame (source : Text) (r : BodyReader) (n : SyntaxNode) : ElementFrame where
  decorators := (r.pending ++ n.namedChildren.filter (·.kind = "decorator")).map (.ofNode source)
  start := (r.pending.head?.getD n).startIn source
  documentation := r.documentation

def addElement (source : Text) (r : BodyReader) (n : SyntaxNode) : BodyReader where
  members := r.members ++ (n.member? source (r.frame source n)).toList
  last := some (n.stopIn source)
  unended := needsSeparator n.kind
  afterElement := true

def step (source : Text) (r : BodyReader) (n : SyntaxNode) : BodyReader :=
  if n.kind = "comment" then { r with documentation := n.documentation source }
  else if n.kind = "decorator" then { r with pending := r.pending ++ [n] }
  else if n.kind = ";" ∨ n.kind = "," then
    if r.afterElement then { r with last := some (n.stopIn source), unended := false } else r
  else if n.kind ∈ elementKinds then r.addElement source n
  else { r with afterElement := false }

def ofBody (source : Text) (body : SyntaxNode) : BodyReader :=
  body.children.foldl (step source) {}

/-- An element that a line feed ends is followed from the next line on. -/
def afterLine (source : Text) (stop : Nat) : Nat :=
  match Text.indexOfFrom? ['\n'] source stop with
  | some i => if (source.slice stop i).all Text.isBlank then i + 1 else stop
  | none => stop

/-- Where a method can be added: after the last element, or at the start of the body. -/
def insertion (source : Text) (bodyStart : Nat) (r : BodyReader) : Nat :=
  match r.last with
  | none => bodyStart + 1
  | some stop => if r.unended then afterLine source stop else stop

end BodyReader

/-! ## Registered components -/

/-- The names that an import statement gives to the default export of a component document. -/
def SyntaxNode.componentImports (source : Text) (n : SyntaxNode) : List (Text × Text) :=
  match (n.childOf? "source").bind (·.stringValue? source) with
  | some specifier =>
    if n.kind = "import_statement" ∧ ".vue".toList.isSuffixOf specifier then
      let clauses := n.namedChildren.filter (·.kind = "import_clause")
      let names := clauses.flatMap fun clause =>
        clause.namedChildren.filter (·.kind = "identifier")
      names.map fun name => (name.textIn source, specifier)
    else []
  | none => []

/-- Imports of component documents; of two under one name the later one counts. -/
def SyntaxNode.imports (source : Text) (root : SyntaxNode) : Keyed Text :=
  Keyed.ofList (root.namedChildren.flatMap (componentImports source))

/-- The properties of the object `components` in the options of a class decorator. -/
def registeredNames (source : Text) (d : Decorator) : Keyed SyntaxNode :=
  (do
    let options ← d.arguments.head?
    guard (options.kind = "object")
    let components ← (options.properties source).get? "components".toList
    guard (components.kind = "object")
    return components.properties source).getD []

def registrations (source : Text) (imports : Keyed Text) (uri : Text) (d : Decorator) :
    Except Fault (List Registration) := do
  let found := (registeredNames source d).filterMap fun (name, value) => do
    guard (value.kind = "identifier" ∨ value.kind = "shorthand_property_identifier")
    let specifier ← imports.get? (value.textIn source)
    return (name, specifier)
  found.mapM fun (name, specifier) => return ⟨name, specifier, ← Uri.resolve specifier uri⟩

/-- The decorator that describes a component: the one of that name, or the first one. -/
def componentDecorator? (decorators : List Decorator) : Option Decorator :=
  (decorators.find? (·.name = "Component".toList)).or decorators.head?

/-! ## Components -/

structure DefaultClass where
  /-- What stands right before the statement. -/
  previous : Option SyntaxNode
  statement : SyntaxNode
  declaration : SyntaxNode

namespace DefaultClass

def classKinds : List String :=
  ["class_declaration", "abstract_class_declaration", "class"]

def exported? (statement : SyntaxNode) : Option SyntaxNode := do
  guard (statement.kind = "export_statement" ∧ statement.children.any (·.kind = "default"))
  let declaration ← (statement.childOf? "declaration").or (statement.childOf? "value")
  guard (declaration.kind ∈ classKinds)
  return declaration

def findFrom (previous : Option SyntaxNode) : List SyntaxNode -> Option DefaultClass
  | [] => none
  | statement :: rest =>
    match exported? statement with
    | some declaration => some ⟨previous, statement, declaration⟩
    | none => findFrom (some statement) rest

def ofTree? (root : SyntaxNode) : Option DefaultClass :=
  findFrom none root.namedChildren

def body? (c : DefaultClass) : Option SyntaxNode :=
  c.declaration.childOf? "body"

def decorators (source : Text) (c : DefaultClass) : List Decorator :=
  (c.statement.decorators ++ c.declaration.decorators).map (.ofNode source)

end DefaultClass

namespace Component

def ofHead (source uri : Text) (c : DefaultClass) : Component where
  uri := uri
  name := ((c.declaration.childOf? "name").map (·.textIn source)).getD "default".toList
  documentation := (c.previous.map (·.documentation source)).getD []
  members := []
  registered := []
  insertion := none

/-- The component that a tree exports; none when it exports no class by default. -/
def ofTree (source uri : Text) (root : SyntaxNode) : Except Fault (Option Component) := do
  match DefaultClass.ofTree? root with
  | none => return none
  | some c =>
    match c.body? with
    | none => return some (ofHead source uri c)
    | some body =>
      let read := BodyReader.ofBody source body
      let registered ← match componentDecorator? (c.decorators source) with
        | some d => registrations source (root.imports source) uri d
        | none => .ok []
      return some {
        ofHead source uri c with
        members := read.members
        registered := registered
        insertion := some (read.insertion source (body.startIn source)) }

def ofScript [ScriptParser] (source uri : Text) : Except Fault (Option Component) :=
  ofTree source uri (ScriptParser.tree source)

end Component
end SfcServer
