import SfcServer.Script.Grammar.Type

/-!
# Blocks

A body in braces takes an automatic semicolon after its closing brace, together with the
comments before it on the same line.  A statement that cannot be made sense of is passed
lexeme by lexeme, with all that stands in brackets, so that it never hides the end of its
block.
-/

namespace SfcServer
namespace Script
namespace Grammar

variable {source : Text}

open Reader

def anySign : Reader source Unit := do
  let _ ← lexeme fun t =>
    match t with
    | [] => none
    | c :: _ => if c = ')' ∨ c = ']' ∨ c = '\x7d' then none else some 1

def anything (g : Grammar source) : Reader source Unit :=
  g.group <|> (do let _ ← string) <|> (do let _ ← number) <|> (do let _ ← word) <|> anySign

def between (opening closing : String) (inner : Reader source Unit) : Reader source Unit := do
  sign opening
  let _ ← many inner
  sign closing

def groupRule (g : Grammar source) : Reader source Unit :=
  between "(" ")" g.anything <|> between "[" "]" g.anything <|>
    between "\x7b" "\x7d" g.anything <|>
    (do
      let _ ← template do
        let _ ← many g.anything)

def step (g : Grammar source) : Reader source Unit := do
  let _ ← commit g.statement

def statements (g : Grammar source) : Reader source Unit :=
  between "\x7b" "\x7d" g.step

def looseStatements (g : Grammar source) : Reader source Unit :=
  between "\x7b" "\x7d" (g.step <|> g.anything)

def bodyEnd (k : EndRule) : Reader source Unit := do
  let _ ← optional (automaticEnd k)

def block (g : Grammar source) (k : EndRule) : Reader source Unit := do
  g.statements <|> g.looseStatements
  bodyEnd k

end Grammar
end Script
end SfcServer
