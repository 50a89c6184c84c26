import SfcServer.Script.Grammar.ClassBody

/-!
# Expressions

An expression is an operand and what follows it.  Only extents matter, so operators are
read from left to right without regard to their strength: whatever follows a prefix or a
binary operator is an expression again.

Two constructs show late what they were, so both readings are given.  Parentheses may
hold the parameters of a function whose arrow comes after a return type, or an operand
before a colon.  And the sign `<` may open type arguments or compare.
-/

namespace SfcServer
namespace Script
namespace Grammar

variable {source : Text}

open Reader

/-! ## Objects and arrays -/

def shorthand : Reader source SyntaxNode := do
  let name ← word
  guard ((← sees ",") || (← sees "\x7d"))
  return name.leaf "shorthand_property_identifier"

def objectMethod (g : Grammar source) : Reader source Unit := do
  let _ ← many (modifier false signatureModifiers)
  let _ ← optional (sign "*")
  let _ ← g.propertyName
  let _ ← optional (sign "?")
  g.callSignature {}
  g.block {}

def pair (g : Grammar source) : Reader source SyntaxNode := node "pair" do
  let name ← g.propertyName
  sign ":"
  return [name.as "key", (← g.expression {}).as "value"]

def property (g : Grammar source) : Reader source SyntaxNode :=
  (leaf "spread_element" do
    sign "..."
    g.extent {}) <|> g.pair <|> shorthand <|>
  (leaf "object_assignment_pattern" do
    let _ ← word
    g.initializer {}) <|> leaf "method_definition" g.objectMethod

def object (g : Grammar source) : Reader source SyntaxNode := node "object" do
  sign "\x7b"
  let properties ← commaSeparated g.property
  sign "\x7d"
  return properties

def array (g : Grammar source) : Reader source SyntaxNode := node "array" do
  sign "["
  let items ← commaSeparated g.argument
  sign "]"
  return items

def collectionRule (g : Grammar source) : Reader source SyntaxNode :=
  g.object <|> g.array

/-! ## Functions -/

def functionOperand (g : Grammar source) : Reader source Operand := do
  keyword "function"
  let _ ← optional (sign "*")
  let _ ← possibly word
  g.callSignature {}
  g.block operandEnd
  return {}

def startsLikeObject : Reader source Bool :=
  finds do
    sign "\x7b"
    let _ ← word
    sign ":"

/-- A body in braces after an arrow: a block, unless it can only be an object. -/
def arrowBlock (g : Grammar source) : Reader source Operand := do
  let objectBody : Reader source Unit := do
    let _ ← g.collection
  if ← startsLikeObject then
    objectBody <|> g.block operandEnd
  else
    (do g.statements; bodyEnd operandEnd) <|> objectBody <|> g.block operandEnd
  return {}

def arrowRest (g : Grammar source) (c : Context) : Reader source Operand := do
  sign "=>"
  if ← sees "\x7b" then g.arrowBlock
  else
    g.extent c
    return { complete := true }

def arrowFunction (g : Grammar source) (c : Context) : Reader source (Bool × Operand) := do
  let _ ← optional g.typeParameters
  g.parameters
  let returned ← possibly do
    sign ":"
    g.returnType {}
  return (!returned.isEmpty, ← g.arrowRest c)

/--
Functions with an arrow, or else other readings; both where all functions have a return
type, because its colon may as well belong to something around.
-/
def arrowsOr (g : Grammar source) (c : Context) (s : Spot source)
    (others : Unit -> List (Reading s Operand)) : List (Reading s Operand) :=
  let arrows := g.arrowFunction c s
  let found := arrows.map fun r => ⟨r.value.2, r.stop, r.start_le_stop⟩
  if arrows.any fun r => !r.value.1 then found else found ++ others ()

def arrowOr (g : Grammar source) (c : Context) (other : Reader source Operand) :
    Reader source Operand := fun s =>
  g.arrowsOr c s fun _ => other s

/-! ## Operands -/

def parenthesized (g : Grammar source) : Reader source Operand := do
  sign "("
  g.expressions {}
  let _ ← optional (g.annotation {})
  sign ")"
  return { assignable := true }

def mayBeParameters (s : Spot source) : Bool :=
  let t := s.rest.drop (gapLength s.rest)
  t.head? = some ':' || "=>".toList.isPrefixOf t

def parenthesizedOperand (g : Grammar source) (c : Context) : Reader source Operand := fun s =>
  let found := g.parenthesized s
  if found.isEmpty || found.any fun r => mayBeParameters r.stop then g.arrowsOr c s fun _ => found
  else found

def assertion (g : Grammar source) (c : Context) : Reader source Operand := do
  g.typeArguments
  g.extent c
  return { complete := true }

def templateOperand (g : Grammar source) : Reader source Operand := do
  return { value := ← template (g.expressions {}) }

def endsOperand (c : Context) : Reader source Bool := do
  return c.canEnd && (← endsHere operandEnd)

def infixWords : List String :=
  ["in", "instanceof", "as", "satisfies"]

def standsAlone (c : Context) : Reader source Bool := do
  return (← endsOperand c) || infixWords.contains (← nextWord)

def nameOperand (g : Grammar source) (c : Context) : Reader source Operand := do
  let name ← leaf "identifier" word
  if ← sees "=>" then g.arrowRest c
  else return { value := name, assignable := true }

def constant : Reader source Operand := do
  let found ← word
  return { value := found.leaf (String.ofList found.text) }

def wordOperator (g : Grammar source) (c : Context) : Reader source Operand := do
  let _ ← word
  g.extent c
  return { complete := true }

def asyncOperand (g : Grammar source) (c : Context) : Reader source Operand := do
  let name ← leaf "identifier" word
  let plain : Reader source Operand := do
    if ← sees "=>" then g.arrowRest c
    else return { value := name, assignable := true }
  if ← endsOperand c then plain
  else
    g.functionOperand <|>
      (do
        let _ ← word
        g.arrowRest c) <|>
      g.arrowOr c plain

def index (g : Grammar source) : Reader source Unit := do
  sign "["
  g.expressions {}
  sign "]"

def partStep (g : Grammar source) (c : Context) : Reader source Unit := do
  guard (!(← endsOperand c))
  match operatorAt? (← ahead) with
  | some "." =>
    sign "."
    (do let _ ← word) <|> (do let _ ← privateName)
  | some "?." =>
    sign "?."
    (do let _ ← word) <|> (do let _ ← privateName) <|> g.index
  | some "[" => g.index
  | some "!" => sign "!"
  | some _ => failure
  | none =>
    let _ ← template (g.expressions {})

def constructed (g : Grammar source) (c : Context) : Reader source Operand := do
  let found ← g.operand c
  if found.complete then return found
  else
    let _ ← many (g.partStep c)
    let _ ← optional (g.typeArgumentsAfterName { inExpression := true })
    let _ ← optional g.arguments
    return {}

def newOperand (g : Grammar source) (c : Context) : Reader source Operand := do
  let name ← leaf "identifier" word
  let plain : Operand := { value := name, assignable := true }
  if ← standsAlone c then return plain
  else
    (do
      sign "."
      keyword "target"
      return {}) <|> g.constructed c <|> pure plain

def yieldOperand (g : Grammar source) (c : Context) : Reader source Operand := do
  let _ ← word
  if ← standsAlone c then return {}
  else
    (do
      let _ ← optional (sign "*")
      g.extent c
      return { complete := true }) <|> pure {}

def usingOperand (g : Grammar source) (c : Context) : Reader source Operand :=
  (do
    let _ ← word
    guard (!(← standsAlone c))
    g.extent c
    return { complete := true }) <|> g.nameOperand c

def namespaceRest (g : Grammar source) (k : EndRule) : Reader source Unit := do
  (do let _ ← string) <|> (do let _ ← path)
  let _ ← optional (g.block k)

def namespaceOperand (g : Grammar source) (c : Context) : Reader source Operand := do
  (do
    let _ ← word
    guard (!(← standsAlone c))
    g.namespaceRest operandEnd
    return {}) <|> g.nameOperand c

def wordOperand (g : Grammar source) (c : Context) : Reader source Operand := do
  match ← nextWord with
  | "" => failure
  | "function" => g.functionOperand
  | "class" =>
    let _ ← g.anyClass
    return {}
  | "async" => g.asyncOperand c
  | "new" => g.newOperand c
  | "yield" => g.yieldOperand c
  | "await" => g.wordOperator c
  | "typeof" => g.wordOperator c
  | "void" => g.wordOperator c
  | "delete" => g.wordOperator c
  | "using" => g.usingOperand c
  | "namespace" => g.namespaceOperand c
  | "import" => constant
  | "this" => constant
  | "super" => constant
  | "null" => constant
  | "undefined" => constant
  | "true" => constant
  | "false" => constant
  | _ => g.nameOperand c

def signOperator (g : Grammar source) (c : Context) : Reader source Operand := do
  sign "!" <|> sign "~" <|> sign "+" <|> sign "-"
  g.extent c
  return { complete := true }

def operandRule (g : Grammar source) (c : Context) : Reader source Operand := do
  match ← ahead with
  | '(' :: _ => g.parenthesizedOperand c
  | '<' :: _ => g.arrowOr c (g.assertion c)
  | '\x7b' :: _ => return { value := ← g.collection, assignable := true }
  | '[' :: _ => return { value := ← g.collection, assignable := true }
  | '@' :: _ =>
    let _ ← g.anyClass
    return {}
  | '/' :: _ =>
    let _ ← regex
    return {}
  | '#' :: _ =>
    let _ ← privateName
    return {}
  | _ =>
    g.wordOperand c <|> g.signOperator c <|>
      (do return { value := ← leaf "string" string }) <|>
      (do
        let _ ← number
        return {}) <|>
      g.templateOperand

/-- An expression; where it is an operand and nothing else, the node of the operand is kept. -/
def expressionRule (g : Grammar source) (c : Context) : Reader source SyntaxNode := distinct do
  let (found, part) ← withPart do
    let found ← g.operand c
    if found.complete then return found.value
    else
      let before ← here
      g.continuation c found.assignable
      return if (← here).offset = before.offset then found.value else none
  return found.getD (part.leaf "expression")

/-! ## What follows an operand -/

def assignmentSigns : List String :=
  ["=", "+=", "-=", "*=", "/=", "%=", "**=", "<<=", ">>=", ">>>=", "&=", "|=", "^=", "&&=", "||=",
    "??="]

def choice (g : Grammar source) (c : Context) : Reader source Unit := do
  sign "?"
  g.extent {}
  sign ":"
  g.extent c

def chainLink (g : Grammar source) : Reader source Unit :=
  (do let _ ← word) <|> (do let _ ← privateName) <|> g.index <|>
  (do
    let _ ← optional g.typeArguments
    let _ ← g.arguments)

def instantiation (g : Grammar source) (c : Context) : Reader source Bool := do
  g.typeArguments
  let before ← here
  let t ← ahead
  g.continuation c false
  let after ← here
  return before.offset = after.offset || ["!", "++", "--"].contains ((operatorAt? t).getD "")

/-- What follows the sign `<`: type arguments if they can be read, or else an operand. -/
def angle (g : Grammar source) (c : Context) : Reader source Unit := fun s =>
  let typed := g.instantiation c s
  let found := typed.map fun r => (⟨(), r.stop, r.start_le_stop⟩ : Reading s Unit)
  let compared : Reader source Unit := do
    sign "<"
    g.extent c
  if typed.isEmpty || typed.any (·.value) then found ++ compared s else found

def operatorRule (g : Grammar source) (c : Context) (assignable : Bool) (t : Text) (op : String) :
    Reader source Unit := do
  if asksForOperand t then g.choice c
  else
    match op with
    | "?" => pure ()
    | "=>" => failure
    | "." =>
      sign "."
      (do let _ ← word) <|> (do let _ ← privateName)
      g.continuation c true
    | "?." =>
      sign "?."
      g.chainLink
      g.continuation c true
    | "[" =>
      g.index
      g.continuation c true
    | "(" =>
      let _ ← g.arguments
      g.continuation c false
    | "!" =>
      sign "!"
      g.continuation c true
    | "++" =>
      sign "++"
      g.continuation c false
    | "--" =>
      sign "--"
      g.continuation c false
    | "<" => g.angle c
    | _ =>
      if assignmentSigns.contains op && !assignable then pure ()
      else
        sign op
        g.extent c

def infixRule (g : Grammar source) (c : Context) : Reader source Unit := do
  match ← nextWord with
  | "in" => let _ ← g.wordOperator c
  | "instanceof" => let _ ← g.wordOperator c
  | "as" =>
    keyword "as"
    g.type c.ofOperand
    g.continuation c false
  | "satisfies" =>
    keyword "satisfies"
    g.type c.ofOperand
    g.continuation c false
  | _ => pure ()

def continuationRule (g : Grammar source) (c : Context) (assignable : Bool) :
    Reader source Unit := do
  let t ← ahead
  if ← endsOperand c then pure ()
  else
    match operatorAt? t with
    | some op => g.operatorRule c assignable t op
    | none =>
      if t.head? = some Text.backtick then
        let _ ← template (g.expressions {})
        g.continuation c false
      else g.infixRule c

end Grammar
end Script
end SfcServer
