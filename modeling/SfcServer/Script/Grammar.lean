import SfcServer.Script.Grammar.Statement

/-!
# The grammar

The rules of all goals, tied together.  Each use of the grammar inside of a rule costs
one step, and a script of a given length needs only so many of them.
-/

namespace SfcServer
namespace Script

variable {source : Text}

def rules (g : Grammar source) : Grammar source
  | .expression c => g.expressionRule c
  | .operand c => g.operandRule c
  | .continuation c assignable => g.continuationRule c assignable
  | .type c => g.typeRule c
  | .typeContinuation c => g.typeContinuationRule c
  | .collection => g.collectionRule
  | .classBody => g.classBodyRule
  | .classElement => g.classElementRule
  | .statement => g.statementRule
  | .group => g.groupRule

def grammarWithin : Nat -> Grammar source
  | 0 => fun _ => failure
  | depth + 1 => rules (grammarWithin depth)

/-- The grammar of a script; no rule is nested deeper than a few times its length. -/
def grammar (source : Text) : Grammar source :=
  grammarWithin (4 * source.length + 16)

end Script
end SfcServer
