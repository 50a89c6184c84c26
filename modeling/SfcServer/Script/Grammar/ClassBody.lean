import SfcServer.Script.Grammar.Block

/-!
# Class bodies

The body of a class is a row of comments, separators and elements.  An element starts
with its decorators and modifiers and its name; then it has either parameters with an
optional body, or an ascription and an initializer.

The end of a field can be open for longer than the field itself: after `a < b >` and a
line feed, the next line can be a further operand or a member of its own.  A written
separator then speaks for the longer field, and otherwise the shorter one is preferred,
if a member follows it.
-/

namespace SfcServer
namespace Script
namespace Grammar

variable {source : Text}

open Reader

/-! ## Modifiers -/

def accessWords : List String :=
  ["public", "private", "protected"]

def modifiersAfter : Option String -> List String
  | none =>
    accessWords ++ ["declare", "static", "override", "readonly", "abstract", "accessor", "async",
      "get", "set"]
  | some "declare" => accessWords ++ ["static", "override", "readonly", "abstract", "accessor"]
  | some "static" => ["override", "readonly", "async", "get", "set"]
  | some "override" => ["readonly", "async", "get", "set"]
  | some "readonly" => ["abstract", "async", "get", "set"]
  | some "abstract" => ["override", "readonly", "get", "set"]
  | some "async" => ["get", "set"]
  | some "get" => []
  | some "set" => []
  | some "accessor" => []
  | some _ =>
    ["declare", "static", "override", "readonly", "abstract", "accessor", "async", "get", "set"]

/--
One modifier.  The words `abstract` and `accessor` are always modifiers where they can
be; all others are names when no name follows on the same line.
-/
def elementModifier (words : List String) : Reader source (Part source) :=
  (do
    let found ← word
    guard (["abstract", "accessor"].contains (String.ofList found.text))
    guard (words.contains (String.ofList found.text))
    return found) <|> modifier true words

def modifiersWithin (previous : Option String) : Nat -> Reader source (List SyntaxNode)
  | 0 => pure []
  | n + 1 =>
    (do
      let found := (← elementModifier (modifiersAfter previous)).token
      return found :: (← modifiersWithin (some found.kind) n)) <|> pure []

def modifiers : Reader source (List SyntaxNode) :=
  modifiersWithin none 8

/-! ## Elements -/

def endsMember (k : EndRule) : Reader source Bool := do
  let t ← ahead
  return t.head? = some ';' || t.head? = some ',' || (← endsHere k)

/-- Parameters and body after the name of a method; without a body it is a signature. -/
def callable (g : Grammar source) (isAbstract : Bool) : Reader source String := do
  let c : Context := { canEnd := true, beforeBody := !isAbstract }
  guard (!(← endsHere {}))
  g.callSignature c
  (do
    g.block {}
    return "method_definition") <|>
  (do
    guard (← endsMember c.typeEnd)
    return "method_signature")

def fieldRest (g : Grammar source) : Reader source (List SyntaxNode) := do
  let ascription ← possibly (leaf "type_annotation" (g.annotation { canEnd := true }))
  let initialized ← possibly (g.initializer { canEnd := true })
  guard (← endsMember { operator := !initialized.isEmpty })
  return ascription.map (·.as "type")

abbrev Member :=
  String × List SyntaxNode

def namedMember (g : Grammar source) : Reader source Member := do
  let words ← modifiers
  let _ ← optional (sign "*")
  let name := (← g.propertyName).as "name"
  let _ ← optional (sign "?" <|> sign "!")
  (do
    let kind ← g.callable (words.any (·.kind = "abstract"))
    return (kind, words ++ [name])) <|>
  (do
    let ascription ← g.fieldRest
    return ("public_field_definition", words ++ name :: ascription))

def staticBlock (g : Grammar source) : Reader source Member := do
  keyword "static"
  g.block {}
  return ("class_static_block", [])

def indexMember (g : Grammar source) : Reader source Member := do
  g.indexSignature { canEnd := true }
  guard (← endsMember {})
  return ("index_signature", [])

def member (g : Grammar source) : Reader source Member :=
  g.staticBlock <|> g.indexMember <|> g.namedMember

def commentedDecorator (g : Grammar source) : Reader source (SyntaxNode × List SyntaxNode) := do
  let found ← g.decorator
  let place ← here
  let comment := (lastComment? place.rest).map fun (start, length) =>
    (Part.ofLength (place.drop start) length).leaf "comment"
  return (found, comment.toList)

/-- All readings of an element.  The decorators of a method stand in front of it, with the comments
after them; those of other elements are a part of it. -/
def elementReadings (g : Grammar source) : Reader source (List SyntaxNode) := do
  let ((head, (kind, children), own), extent) ← withPart do
    let head ← many g.commentedDecorator
    return (head, ← withPart g.member)
  if kind = "method_definition" then
    return head.flatMap (fun (decorator, comment) => decorator :: comment) ++
      [own.node kind children]
  else
    return [extent.node kind (head.map Prod.fst ++ children)]

def separated (s : Spot source) : Bool :=
  let t := s.rest.drop (gapLength s.rest)
  t.head? = some ';' || t.head? = some ','

/-! ## Bodies -/

def comment : Reader source SyntaxNode := do
  blanks
  return (← adjacent commentLength?).leaf "comment"

def knownItem (g : Grammar source) : Reader source (List SyntaxNode) :=
  (do return [← comment]) <|>
  (do return [← leaf "html_comment" (lexeme markupCommentLength?)]) <|>
  (do return [← token (sign ";" <|> sign ",")]) <|> g.classElement

def bodyItem (g : Grammar source) : Reader source (List SyntaxNode) :=
  g.knownItem <|> (do return [← leaf "ERROR" g.anything])

def isFollowed (g : Grammar source) (s : Spot source) : Bool :=
  let rest : Reader source Unit := do
    automaticEnd operandEnd
    let _ ← many g.knownItem
    sign "\x7d"
  !(rest s).isEmpty

def classElementRule (g : Grammar source) : Reader source (List SyntaxNode) := fun s =>
  match distinctEnds (g.elementReadings s) with
  | [] => []
  | [only] => [only]
  | first :: others =>
    let found := first :: others
    let chosen := (found.find? fun r => separated r.stop).or
      (found.find? fun r => g.isFollowed r.stop)
    [chosen.getD first]

def classBodyRule (g : Grammar source) : Reader source SyntaxNode := node "class_body" do
  let opening ← token (sign "\x7b")
  let items ← many g.bodyItem
  let closing ← token (sign "\x7d")
  return opening :: items.flatten ++ [closing]

/-! ## Classes -/

def extension (g : Grammar source) : Reader source Unit := do
  keyword "extends"
  g.expressions {}

def interfaces (g : Grammar source) : Reader source Unit := do
  keyword "implements"
  g.type {}
  let _ ← many do
    sign ","
    g.type {}

def classRest (g : Grammar source) : Reader source SyntaxNode := commit do
  let _ ← optional g.typeParameters
  let _ ← optional g.extension
  let _ ← optional g.interfaces
  return (← g.classBody).as "body"

def className : Reader source SyntaxNode := do
  let found ← word
  guard (!(["extends", "implements"].contains (String.ofList found.text)))
  return (found.leaf "type_identifier").as "name"

def namedClass (g : Grammar source) : Reader source SyntaxNode := node "class_declaration" do
  let decorators ← many g.decorator
  keyword "class"
  let name ← className
  return decorators ++ [name, ← g.classRest]

def abstractClass (g : Grammar source) : Reader source SyntaxNode :=
  node "abstract_class_declaration" do
    let decorators ← many g.decorator
    keyword "abstract"
    keyword "class"
    let name ← leaf "type_identifier" word
    return decorators ++ [name.as "name", ← g.classRest]

def anyClass (g : Grammar source) : Reader source SyntaxNode := node "class" do
  let decorators ← many g.decorator
  keyword "class"
  let name ← possibly className
  return decorators ++ name ++ [← g.classRest]

end Grammar
end Script
end SfcServer
