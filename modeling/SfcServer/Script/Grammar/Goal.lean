import SfcServer.Script.Reader

/-!
# Goals of the grammar

The constructs that contain each other are goals, and the grammar is one reader for each
goal.  The rules in the modules beside this one are written over such a grammar, which
they use for the constructs inside; `Script.grammar` ties the knot.
-/

namespace SfcServer
namespace Script

structure Context where
  /-- Whether a statement or member can end here, so that a line feed can end it. -/
  canEnd : Bool := false
  /-- Whether a type stands in an expression, so that operators can follow it. -/
  inExpression : Bool := false
  /-- Whether a type stands before the body of a method. -/
  beforeBody : Bool := false
  deriving DecidableEq, Repr

namespace Context

def typeEnd (c : Context) : EndRule :=
  ⟨c.inExpression, c.beforeBody⟩

def ofOperand (c : Context) : Context :=
  { canEnd := c.canEnd, inExpression := true }

end Context

def operandEnd : EndRule :=
  { operator := true }

structure Operand where
  /-- The node of the operand, if anything but its extent matters. -/
  value : Option SyntaxNode := none
  /-- Whether a value can be assigned to it. -/
  assignable : Bool := false
  /-- Whether all that can follow it has been read. -/
  complete : Bool := false

inductive Goal where
  | expression (c : Context)
  | operand (c : Context)
  /-- What can follow an operand, and whether a value can be assigned to it. -/
  | continuation (c : Context) (assignable : Bool)
  | type (c : Context)
  /-- What can follow a complete type. -/
  | typeContinuation (c : Context)
  /-- An object or an array, be it a literal or a pattern. -/
  | collection
  | classBody
  | classElement
  | statement
  /-- Brackets with anything in them. -/
  | group
  deriving DecidableEq, Repr

def Goal.Result : Goal -> Type
  | .expression _ => SyntaxNode
  | .operand _ => Operand
  | .continuation .. => Unit
  | .type _ => Unit
  | .typeContinuation _ => Unit
  | .collection => SyntaxNode
  | .classBody => SyntaxNode
  | .classElement => List SyntaxNode
  | .statement => SyntaxNode
  | .group => Unit

abbrev Grammar (source : Text) : Type :=
  (goal : Goal) -> Reader source goal.Result

namespace Grammar

variable {source : Text}

def expression (g : Grammar source) (c : Context) : Reader source SyntaxNode :=
  g (.expression c)

def operand (g : Grammar source) (c : Context) : Reader source Operand :=
  g (.operand c)

def continuation (g : Grammar source) (c : Context) (assignable : Bool) : Reader source Unit :=
  g (.continuation c assignable)

def type (g : Grammar source) (c : Context) : Reader source Unit :=
  g (.type c)

def typeContinuation (g : Grammar source) (c : Context) : Reader source Unit :=
  g (.typeContinuation c)

def collection (g : Grammar source) : Reader source SyntaxNode :=
  g .collection

def classBody (g : Grammar source) : Reader source SyntaxNode :=
  g .classBody

def classElement (g : Grammar source) : Reader source (List SyntaxNode) :=
  g .classElement

def statement (g : Grammar source) : Reader source SyntaxNode :=
  g .statement

def group (g : Grammar source) : Reader source Unit :=
  g .group

def extent (g : Grammar source) (c : Context) : Reader source Unit := do
  let _ ← g.expression c

def expressions (g : Grammar source) (c : Context) : Reader source Unit := do
  g.extent c
  let _ ← Reader.many do
    Reader.sign ","
    g.extent c

end Grammar
end Script
end SfcServer
