import SfcServer.Script.Grammar.Goal

/-!
# Literals, names and arguments

The small constructs that types, expressions and class bodies share.
-/

namespace SfcServer
namespace Script

namespace Grammar

variable {source : Text}

open Reader

/-! ## Literals -/

def string : Reader source (Part source) :=
  lexeme stringLength?

def number : Reader source (Part source) :=
  lexeme numberLength?

def regex : Reader source (Part source) :=
  lexeme regexLength?

def chunk : Reader source Unit := do
  let _ ← adjacent fun t => some (chunkLength t)

def substitution (inner : Reader source Unit) : Reader source SyntaxNode := do
  let found ← leaf "template_substitution" do
    let _ ← adjacent fun t => if "$\x7b".toList.isPrefixOf t then some 2 else none
    inner
    sign "\x7d"
  chunk
  return found

def template (inner : Reader source Unit) : Reader source SyntaxNode := node "template_string" do
  let _ ← lexeme fun t => if t.head? = some Text.backtick then some 1 else none
  chunk
  let substitutions ← many (substitution inner)
  let _ ← adjacent fun t => if t.head? = some Text.backtick then some 1 else none
  return substitutions

/-! ## Arguments -/

def argument (g : Grammar source) : Reader source SyntaxNode :=
  leaf "spread_element" (do sign "..."; g.extent {}) <|> g.expression {}

def arguments (g : Grammar source) : Reader source SyntaxNode := node "arguments" do
  sign "("
  let values ← commaSeparated g.argument
  sign ")"
  return values

/-! ## Names of properties -/

def computedName (g : Grammar source) : Reader source SyntaxNode :=
  leaf "computed_property_name" do
    sign "["
    g.extent {}
    sign "]"

def propertyName (g : Grammar source) : Reader source SyntaxNode :=
  leaf "property_identifier" word <|> leaf "string" string <|> leaf "number" number <|>
    leaf "private_property_identifier" privateName <|> g.computedName

end Grammar
end Script
end SfcServer
