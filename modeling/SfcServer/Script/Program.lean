import SfcServer.Script.Grammar

/-!
# The parser of the program

The program runs with this parser of scripts.  It tells apart what a component is taken from, and
passes all else over as statements, expressions and errors of which only the extent is kept.  The
server is written for any parser, and no result about the server depends on this one.
-/

namespace SfcServer
namespace Script

variable {source : Text}

namespace Grammar

open Reader

def scriptItem (g : Grammar source) : Reader source SyntaxNode :=
  comment <|> leaf "html_comment" (lexeme markupCommentLength?) <|> commit g.statement <|>
    leaf "ERROR" (g.anything <|> sign ")" <|> sign "]" <|> sign "\x7d")

def interpreterLine : Reader source Unit := do
  let _ ← adjacent fun t =>
    if "#!".toList.isPrefixOf t then some (t.takeWhile (· != '\n')).length else none

def script (g : Grammar source) : Reader source (List SyntaxNode) := do
  let _ ← optional interpreterLine
  many g.scriptItem

end Grammar

/-! ## Trees -/

mutual

def moveNode (f : Nat -> Nat) : SyntaxNode -> SyntaxNode
  | ⟨kind, field, isNamed, start, stop, children⟩ =>
    ⟨kind, field, isNamed, f start, f stop, moveNodes f children⟩

def moveNodes (f : Nat -> Nat) : List SyntaxNode -> List SyntaxNode
  | [] => []
  | n :: rest => moveNode f n :: moveNodes f rest

end

def treeOfText (source : Text) : SyntaxNode where
  kind := "program"
  start := 0
  stop := source.length
  children := (((grammar source).script (.first source)).head?.map (·.value)).getD []

/-- The tree of a script that is given as bytes. -/
def parse (bytes : Bytes) : SyntaxNode :=
  let source := Utf8.decodeReplacing bytes
  moveNode (Utf8.byteAt source) (treeOfText source)

end Script

instance : ScriptParser :=
  ⟨Script.parse⟩

end SfcServer
