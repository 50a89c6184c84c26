import SfcServer.Script.Grammar.Literal

/-!
# Types

Only the extent of a type matters, so operators are read from left to right without
regard to their strength.  A parenthesis can open the parameters of a function type or
enclose a type, and what follows decides, so both readings are given.

The signatures of functions are read here as well, since they stand in types.
-/

namespace SfcServer
namespace Script
namespace Grammar

variable {source : Text}

open Reader

/-! ## Arguments and parameters of types -/

def typeArguments (g : Grammar source) : Reader source Unit := do
  sign "<"
  g.type {}
  let _ ← many do
    sign ","
    g.type {}
  let _ ← optional (sign ",")
  sign ">"

def typeArgumentsAfterName (g : Grammar source) (c : Context) : Reader source Unit := do
  let t ← ahead
  guard (!c.inExpression || operatorAt? t == some "<")
  g.typeArguments

def constraint (g : Grammar source) : Reader source Unit := do
  keyword "extends" <|> sign ":"
  g.type {}

def defaultType (g : Grammar source) : Reader source Unit := do
  sign "="
  g.type {}

def typeParameter (g : Grammar source) : Reader source Unit := do
  let _ ← (do keyword "const"; word) <|> word
  let _ ← optional g.constraint
  let _ ← optional g.defaultType

def typeParameters (g : Grammar source) : Reader source Unit := do
  sign "<"
  g.typeParameter
  let _ ← many do
    sign ","
    g.typeParameter
  let _ ← optional (sign ",")
  sign ">"

/-! ## Decorators -/

def path : Reader source SyntaxNode := do
  let ((first, more), part) ← withPart do
    let first ← word
    return (first, ← many do
      sign "."
      word)
  return match more.getLast? with
    | some last => part.node "member_expression" [(last.leaf "property_identifier").as "property"]
    | none => first.leaf "identifier"

def decoratorCall (g : Grammar source) : Reader source SyntaxNode := do
  let ((callee, call), part) ← withPart do
    let callee ← path
    return (callee, ← possibly do
      let _ ← optional g.typeArguments
      g.arguments)
  return match call with
    | [] => callee
    | arguments :: _ =>
      part.node "call_expression" [callee.as "function", arguments.as "arguments"]

def parenthesizedDecorator (g : Grammar source) : Reader source SyntaxNode :=
  leaf "parenthesized_expression" do
    sign "("
    g.extent {}
    sign ")"

def decorator (g : Grammar source) : Reader source SyntaxNode := node "decorator" do
  sign "@"
  return [← g.decoratorCall <|> g.parenthesizedDecorator]

/-! ## Signatures -/

def startsName (t : Text) : Bool :=
  (wordLength? t).isSome || (stringLength? t).isSome || (numberLength? t).isSome ||
    (privateNameLength? t).isSome || t.head? = some '[' || t.head? = some '*'

/--
One of several words before the name of a member, unless the word is the name.  Where
members can end with a line, a word at the end of its line is a name.
-/
def modifier (canEnd : Bool) (words : List String) : Reader source (Part source) := do
  let found ← word
  guard (words.contains (String.ofList found.text))
  guard (!(canEnd && (← endsHere {})))
  guard (startsName (← ahead))
  return found

def opensBinding (t : Text) : Bool :=
  (wordLength? t).isSome || t.head? = some '\x7b' || t.head? = some '[' || t.head? = some '.'

def parameterModifier : Reader source Unit := do
  keywordOf ["public", "private", "protected", "override", "readonly"]
  guard (opensBinding (← ahead))

def binding (g : Grammar source) : Reader source Unit := do
  let _ ← optional (sign "...")
  (do let _ ← word) <|> (do let _ ← g.collection)

def annotation (g : Grammar source) (c : Context) : Reader source Unit := do
  sign ":"
  g.type c

def initializer (g : Grammar source) (c : Context) : Reader source Unit := do
  equals
  g.extent c

def parameter (g : Grammar source) : Reader source Unit := do
  let _ ← many g.decorator
  let _ ← many parameterModifier
  g.binding
  let _ ← optional (sign "?")
  let _ ← optional (g.annotation {})
  let _ ← optional (g.initializer {})

def parameters (g : Grammar source) : Reader source Unit := do
  sign "("
  let _ ← commaSeparated g.parameter
  sign ")"

def endsType (c : Context) : Reader source Bool := do
  return c.canEnd && (← endsHere c.typeEnd)

def typeWords : List String :=
  ["typeof", "keyof", "readonly", "unique", "infer", "import", "new", "abstract"]

def predicate (g : Grammar source) (c : Context) : Reader source Unit := do
  guard (!(← endsType c))
  keyword "is"
  g.type c

def returnType (g : Grammar source) (c : Context) : Reader source Unit :=
  (do
    keyword "asserts"
    let _ ← word
    let _ ← optional (g.predicate c)) <|>
  (do
    let name ← word
    guard (!typeWords.contains (String.ofList name.text))
    g.predicate c) <|> g.type c

def callSignature (g : Grammar source) (c : Context) : Reader source Unit := do
  let _ ← optional g.typeParameters
  g.parameters
  let _ ← optional do
    sign ":"
    g.returnType c

/-! ## Members of object types -/

def indexKey (g : Grammar source) : Reader source Unit := do
  let _ ← word
  (do sign ":"; g.type {}) <|> (do
    keyword "in"
    g.type {}
    let _ ← optional do
      keyword "as"
      g.type {})

def indexSignature (g : Grammar source) (c : Context) : Reader source Unit := do
  let _ ← optional do
    let _ ← optional (sign "-" <|> sign "+")
    keyword "readonly"
  sign "["
  g.indexKey
  sign "]"
  let _ ← optional do
    sign "-?:" <|> sign "+?:" <|> sign "?:" <|> sign ":"
    g.type c

def signatureModifiers : List String :=
  ["public", "private", "protected", "static", "override", "readonly", "async", "get", "set"]

def memberSignature (g : Grammar source) (c : Context) : Reader source Unit :=
  g.callSignature c <|>
  (do
    let _ ← optional (keyword "abstract")
    keyword "new"
    g.callSignature c) <|>
  (do
    let _ ← many (modifier true signatureModifiers)
    let _ ← optional (sign "*")
    let _ ← g.propertyName
    let _ ← optional (sign "?")
    g.callSignature c <|> g.annotation c <|> pure ())

def closesObjectType : Reader source Unit :=
  sign "|\x7d" <|> sign "\x7d"

def atObjectTypeEnd : Reader source Unit := do
  let closing : Reader source Unit := closesObjectType
  guard (← finds closing)

def objectTypeMember (g : Grammar source) : Reader source Unit := do
  g.indexSignature { canEnd := true } <|> g.memberSignature { canEnd := true }
  sign "," <|> semicolon {} <|> atObjectTypeEnd

def objectType (g : Grammar source) : Reader source Unit := do
  sign "\x7b|" <|> sign "\x7b"
  let _ ← optional (sign "," <|> sign ";")
  let _ ← many g.objectTypeMember
  closesObjectType

/-! ## Types -/

def tupleMember (g : Grammar source) : Reader source Unit := do
  let _ ← optional (sign "...")
  (do
    let _ ← word
    let _ ← optional (sign "?")
    g.annotation {}) <|>
  (do
    g.type {}
    let _ ← optional (sign "?"))

def tuple (g : Grammar source) : Reader source Unit := do
  sign "["
  let _ ← commaSeparated g.tupleMember
  sign "]"

def functionType (g : Grammar source) (c : Context) : Reader source Unit := do
  let _ ← optional g.typeParameters
  g.parameters
  sign "=>"
  g.returnType c

def queryStep (g : Grammar source) (c : Context) : Reader source Unit := do
  guard (!(← endsType c))
  (do
    let _ ← optional (sign "?.")
    sign "["
    (do let _ ← string) <|> (do let _ ← number) <|> (do let _ ← word)
    sign "]") <|>
  (do
    sign "?." <|> sign "."
    (do let _ ← word) <|> (do let _ ← privateName)) <|>
  (do let _ ← g.arguments) <|> g.typeArgumentsAfterName c

def typeQuery (g : Grammar source) (c : Context) : Reader source Unit := do
  (do
    keyword "import"
    let _ ← g.arguments) <|> (do let _ ← word)
  let _ ← many (g.queryStep c)

def importStep (g : Grammar source) : Reader source Unit :=
  (do let _ ← g.arguments) <|>
  (do
    sign "."
    (do let _ ← word) <|> (do let _ ← privateName))

def importedType (g : Grammar source) (c : Context) : Reader source Unit := do
  g.importStep
  let _ ← many do
    guard (!(← endsType c))
    g.importStep

def namedType (g : Grammar source) (c : Context) : Reader source Unit := do
  let _ ← word
  let _ ← many do
    sign "."
    word
  let _ ← optional (g.typeArgumentsAfterName c)
  g.typeContinuation c

def keywordType (g : Grammar source) (c : Context) : Reader source Unit := do
  match String.ofList (← word).text with
  | "typeof" =>
    g.typeQuery c
    g.typeContinuation c
  | "keyof" => g.type c
  | "readonly" => g.type c
  | "unique" =>
    keyword "symbol"
    g.typeContinuation c
  | "infer" =>
    let _ ← word
    let _ ← optional do
      guard (!(← endsType c))
      keyword "extends"
      g.type c
    g.typeContinuation c
  | "import" =>
    g.importedType c
    g.typeContinuation c
  | "new" => g.functionType c
  | "abstract" =>
    keyword "new"
    g.functionType c
  | _ => failure

def typeOperand (g : Grammar source) (c : Context) : Reader source Unit := do
  match ← ahead with
  | '(' :: _ =>
    (g.functionType c).also do
      sign "("
      g.type {}
      sign ")"
      g.typeContinuation c
  | '<' :: _ => g.functionType c
  | '\x7b' :: _ =>
    g.objectType
    g.typeContinuation c
  | '[' :: _ =>
    g.tuple
    g.typeContinuation c
  | '?' :: _ =>
    sign "?"
    g.type c
  | '*' :: _ =>
    sign "*"
    g.typeContinuation c
  | _ =>
    g.keywordType c <|> g.namedType c <|> (do
      (do let _ ← string) <|>
        (do
          let _ ← optional (sign "-" <|> sign "+")
          let _ ← number) <|>
        (do let _ ← template (g.type {}))
      g.typeContinuation c)

def typeRule (g : Grammar source) (c : Context) : Reader source Unit := do
  let _ ← many (sign "|" <|> sign "&")
  g.typeOperand c

def joinsTypes (c : Context) (t : Text) : Bool :=
  if c.inExpression then operatorAt? t == some "|" || operatorAt? t == some "&"
  else !("|\x7d".toList.isPrefixOf t) && (t.head? = some '|' || t.head? = some '&')

def typeContinuationRule (g : Grammar source) (c : Context) : Reader source Unit := do
  let t ← ahead
  if ← endsType c then pure ()
  else if t.head? = some '[' then
    sign "["
    let _ ← optional (g.type {})
    sign "]"
    g.typeContinuation c
  else if joinsTypes c t then
    sign "|" <|> sign "&"
    g.type c
  else if (← nextWord) = "extends" then
    keyword "extends"
    g.type {}
    sign "?"
    g.type {}
    sign ":"
    g.type c
  else pure ()

end Grammar
end Script
end SfcServer
