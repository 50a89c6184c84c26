import SfcServer.Script.Grammar.Expression

/-!
# Statements

Of most statements only the extent matters, and whether an automatic semicolon ends
them, because the comments before that semicolon belong to the statement.  Imports of a
default export and exports of a class by default are kept.

Many words that start a statement are names as well.  Such a word is a name when the
statement it would start cannot be read, or when a line feed ends a statement right
after it.
-/

namespace SfcServer
namespace Script
namespace Grammar

variable {source : Text}

open Reader

def openingWord (words : List String) : Reader source Unit := do
  keywordOf words
  guard (!(← endsHere operandEnd))

def endable : Context :=
  { canEnd := true }

/-! ## Declarations -/

def functionDeclaration (g : Grammar source) : Reader source Unit := do
  let _ ← optional (openingWord ["async"])
  keyword "function"
  let _ ← optional (sign "*")
  let _ ← word
  g.callSignature { canEnd := true, beforeBody := true }
  g.block {} <|> semicolon { body := true }

def declarator (g : Grammar source) (c : Context) : Reader source Bool := do
  g.binding
  let _ ← optional (sign "!")
  let _ ← optional (g.annotation c)
  return !(← possibly (g.initializer c)).isEmpty

def declarators (g : Grammar source) (c : Context) : Reader source Bool := do
  let first ← g.declarator c
  let others ← many do
    sign ","
    g.declarator c
  return others.getLast?.getD first

def variableDeclaration (g : Grammar source) : Reader source Unit := do
  keywordOf ["var", "const"] <|> openingWord ["let"]
  let initialized ← g.declarators endable
  semicolon { operator := initialized }

def enumMember (g : Grammar source) : Reader source Unit := do
  let _ ← g.propertyName
  let _ ← optional (g.initializer {})

def enumDeclaration (g : Grammar source) : Reader source Unit := do
  let _ ← optional (keyword "const")
  keyword "enum"
  let _ ← word
  sign "\x7b"
  let _ ← commaSeparated g.enumMember
  sign "\x7d"

def interfaceDeclaration (g : Grammar source) : Reader source Unit := do
  keyword "interface"
  let _ ← word
  let _ ← optional g.typeParameters
  let _ ← optional do
    keyword "extends"
    g.type {}
    let _ ← many do
      sign ","
      g.type {}
  g.objectType

def typeDeclaration (g : Grammar source) : Reader source Unit := do
  openingWord ["type"]
  let _ ← word
  let _ ← optional g.typeParameters
  sign "="
  g.type endable
  semicolon {}

def namespaceDeclaration (g : Grammar source) : Reader source Unit := do
  openingWord ["namespace", "module"]
  guard (!infixWords.contains (← nextWord))
  g.namespaceRest {}

def aliasDeclaration : Reader source Unit := do
  keyword "import"
  let _ ← word
  equals
  let _ ← path
  semicolon {}

def classDeclaration (g : Grammar source) : Reader source Unit :=
  (do let _ ← g.abstractClass) <|>
  (do
    let _ ← g.namedClass
    bodyEnd {})

def plainDeclaration (g : Grammar source) : Reader source Unit :=
  g.functionDeclaration <|> g.classDeclaration <|> g.enumDeclaration <|> g.variableDeclaration <|>
    g.interfaceDeclaration <|> g.typeDeclaration <|> g.namespaceDeclaration <|> aliasDeclaration

def ambient (g : Grammar source) : Reader source Unit :=
  (do
    keyword "global"
    g.block {}) <|>
  (do
    keyword "module"
    sign "."
    let _ ← word
    g.annotation endable
    semicolon {}) <|> g.plainDeclaration

def declaration (g : Grammar source) : Reader source Unit :=
  (do
    openingWord ["declare"]
    g.ambient) <|> g.plainDeclaration

/-! ## Imports -/

def specifiers : Reader source Unit := do
  sign "\x7b"
  let _ ← commaSeparated do
    let _ ← word <|> string
    many (word <|> string)
  sign "\x7d"

def wholeModule : Reader source Unit := do
  sign "*"
  keyword "as"
  let _ ← word <|> string

/-- The names that an import gives: the one for the default export, if there is one. -/
def importedNames : Reader source SyntaxNode :=
  (node "import_clause" do
    let name ← leaf "identifier" word
    let _ ← optional do
      sign ","
      wholeModule <|> specifiers
    return [name]) <|> leaf "import_clause" (wholeModule <|> specifiers)

def moduleSpecifier : Reader source SyntaxNode := do
  keyword "from"
  return (← leaf "string" string).as "source"

def importAttributes (g : Grammar source) : Reader source Unit := do
  guard (!(← endsHere {}))
  keywordOf ["with", "assert"]
  let _ ← g.collection

def importClause : Reader source (List SyntaxNode) := do
  let names ← importedNames
  return [names, ← moduleSpecifier]

def requirement : Reader source (List SyntaxNode) := do
  let _ ← word
  equals
  keyword "require"
  sign "("
  let _ ← string
  sign ")"
  return []

def importStatement (g : Grammar source) : Reader source SyntaxNode := node "import_statement" do
  keyword "import"
  let kind : Reader source Unit := keywordOf ["type", "typeof"]
  let found ←
    (do
      kind
      importClause) <|> importClause <|>
    (do
      kind
      requirement) <|> requirement <|>
    (do return [(← leaf "string" string).as "source"])
  let _ ← optional g.importAttributes
  semicolon {}
  return found

/-! ## Exports -/

/-- The class that is exported by default when it has no name; nothing may follow it. -/
def namelessExport (g : Grammar source) : Reader source (List SyntaxNode) := do
  let found ← g.anyClass
  let before ← here
  g.continuation endable false
  let after ← here
  semicolon operandEnd
  return if before.offset = after.offset then [found.as "value"] else []

def defaultExport (g : Grammar source) : Reader source (List SyntaxNode) :=
  (do return [(← g.abstractClass).as "declaration"]) <|>
  (do
    let found ← g.namedClass
    bodyEnd {}
    return [found.as "declaration"]) <|>
  (do
    g.declaration
    return []) <|>
  g.namelessExport <|>
  (do
    g.extent endable
    semicolon operandEnd
    return [])

def exportClause : Reader source Unit := do
  let _ ← optional (keyword "type")
  (do
    wholeModule <|> sign "*"
    let _ ← moduleSpecifier) <|>
  (do
    specifiers
    let _ ← optional moduleSpecifier)
  semicolon {}

def exportedDeclaration (g : Grammar source) : Reader source Unit :=
  exportClause <|>
  (do
    equals
    g.extent endable
    semicolon operandEnd) <|>
  (do
    keyword "as"
    keyword "namespace"
    let _ ← word
    semicolon {}) <|> g.declaration

def exportStatement (g : Grammar source) : Reader source SyntaxNode := node "export_statement" do
  let decorators ← many g.decorator
  keyword "export"
  guard (!decorators.isEmpty || !(← endsHere operandEnd))
  (do
    let marked ← token (keyword "default")
    return decorators ++ marked :: (← g.defaultExport)) <|>
  (do
    g.exportedDeclaration
    return decorators)

/-! ## Control -/

def ifStatement (g : Grammar source) : Reader source Unit := do
  keyword "if"
  let _ ← g.parenthesized
  g.step
  let _ ← optional do
    keyword "else"
    g.step

def eachHeader (g : Grammar source) : Reader source Unit :=
  (do
    sign "("
    let _ ← optional (keywordOf ["var", "let", "const", "using"])
    let _ ← g.declarator {}
    keywordOf ["in", "of"]
    g.expressions {}
    sign ")") <|>
  (do
    sign "("
    g.expressions {}
    let _ ← optional do
      keyword "of"
      g.expressions {}
    sign ")")

def countHeader (g : Grammar source) : Reader source Unit := do
  sign "("
  let _ ← optional ((do
    keywordOf ["var", "let", "const"]
    let _ ← g.declarators {}) <|> g.expressions {})
  sign ";"
  let _ ← optional (g.expressions {})
  sign ";"
  let _ ← optional (g.expressions {})
  sign ")"

def forStatement (g : Grammar source) : Reader source Unit := do
  keyword "for"
  let _ ← optional (keyword "await")
  g.eachHeader <|> g.countHeader
  g.step

def whileStatement (g : Grammar source) : Reader source Unit := do
  keywordOf ["while", "with"]
  let _ ← g.parenthesized
  g.step

def doStatement (g : Grammar source) : Reader source Unit := do
  keyword "do"
  g.step
  keyword "while"
  let _ ← g.parenthesized
  let _ ← optional (semicolon {})

def caseLabel (g : Grammar source) : Reader source Unit := do
  (do
    keyword "case"
    g.expressions {}) <|> keyword "default"
  sign ":"

def caseClause (g : Grammar source) : Reader source Unit := do
  g.caseLabel
  let _ ← many do
    guard (!(["case", "default"].contains (← nextWord)))
    g.step

def switchStatement (g : Grammar source) : Reader source Unit := do
  keyword "switch"
  let _ ← g.parenthesized
  between "\x7b" "\x7d" g.caseClause

def tryStatement (g : Grammar source) : Reader source Unit := do
  keyword "try"
  g.block {}
  let _ ← optional do
    keyword "catch"
    let _ ← optional do
      sign "("
      let _ ← g.declarator {}
      sign ")"
    g.block {}
  let _ ← optional do
    keyword "finally"
    g.block {}

def returnStatement (g : Grammar source) : Reader source Unit := do
  keyword "return"
  semicolon {} <|> (do
    g.expressions endable
    semicolon operandEnd)

def throwStatement (g : Grammar source) : Reader source Unit := do
  keyword "throw"
  g.expressions endable
  semicolon operandEnd

def jumpStatement : Reader source Unit := do
  keywordOf ["break", "continue", "debugger"]
  semicolon {} <|> (do
    let _ ← word
    semicolon {})

def controlStatement (g : Grammar source) : Reader source Unit :=
  g.ifStatement <|> g.forStatement <|> g.whileStatement <|> g.doStatement <|> g.switchStatement <|>
    g.tryStatement <|> g.returnStatement <|> g.throwStatement <|> jumpStatement

/-! ## Statements -/

def labeledStatement (g : Grammar source) : Reader source Unit := do
  let _ ← word
  sign ":"
  g.step

def expressionStatement (g : Grammar source) : Reader source Unit := do
  g.expressions endable
  semicolon operandEnd

def plainStatement (g : Grammar source) : Reader source Unit := do
  match ← ahead with
  | ';' :: _ => sign ";"
  | '\x7b' :: _ =>
    (do
      g.statements
      bodyEnd {}) <|> g.expressionStatement <|> g.block {}
  | '@' :: _ => g.classDeclaration <|> g.expressionStatement
  | _ => g.controlStatement <|> g.declaration <|> g.labeledStatement <|> g.expressionStatement

def statementRule (g : Grammar source) : Reader source SyntaxNode :=
  g.exportStatement <|> g.importStatement <|> leaf "statement" g.plainStatement

end Grammar
end Script
end SfcServer
