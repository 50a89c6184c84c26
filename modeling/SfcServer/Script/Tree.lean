import SfcServer.Text.Utf8

/-!
# Syntax trees

The server does not parse scripts by itself: it is given a parser, which makes a tree of the bytes
of a script.  A node of the tree has a kind, and the children that the grammar gives to this kind,
in the order in which they stand in the script.  Keywords and signs are children too, and their
kind is their text.

Everything that is known of a component is taken from such a tree.
-/

namespace SfcServer

structure SyntaxNode where
  kind : String
  /-- What the node is to its parent, where the grammar has a name for it. -/
  field : Option String := none
  /-- Keywords and signs are not named. -/
  isNamed : Bool := true
  /-- Offsets of its first byte and of the byte behind it. -/
  start : Nat
  stop : Nat
  children : List SyntaxNode := []

class ScriptParser where
  /-- The root of the tree of a script. -/
  parse : Bytes -> SyntaxNode

def ScriptParser.tree [ScriptParser] (source : Text) : SyntaxNode :=
  parse (Utf8.encode source)

namespace SyntaxNode

/-- A keyword or a sign. -/
def token (text : String) (start stop : Nat) : SyntaxNode where
  kind := text
  isNamed := false
  start := start
  stop := stop

def as (n : SyntaxNode) (field : String) : SyntaxNode :=
  { n with field := some field }

def namedChildren (n : SyntaxNode) : List SyntaxNode :=
  n.children.filter (·.isNamed)

def childOf? (n : SyntaxNode) (field : String) : Option SyntaxNode :=
  n.children.find? (·.field = some field)

/-! ## Characters -/

def startIn (source : Text) (n : SyntaxNode) : Nat :=
  Utf8.characterAt source n.start

def stopIn (source : Text) (n : SyntaxNode) : Nat :=
  Utf8.characterAt source n.stop

def textIn (source : Text) (n : SyntaxNode) : Text :=
  source.slice (n.startIn source) (n.stopIn source)

end SyntaxNode
end SfcServer
