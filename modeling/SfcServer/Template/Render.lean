import SfcServer.Template.Expression
import SfcServer.Offset.Breakpoints

/-!
# The render method

The expressions of a template become the body of a method, so that a type checker
sees them as code: a condition opens a block that narrows it, a loop one that binds
its variables, and everything else is a statement.  Each expression is marked with
the offset at which it was written.
-/

namespace SfcServer

/-- A part of generated code, or the mark of a source offset before the next part. -/
inductive Piece where
  | code (text : Text)
  | mark (source : Nat)
  deriving DecidableEq, Repr

namespace Piece

def text : Piece -> Text
  | .code t => t
  | .mark _ => []

def textOf (pieces : List Piece) : Text :=
  pieces.flatMap text

/-- The marks of a sequence of pieces whose code begins at `offset`. -/
def marksFrom (offset : Nat) : List Piece -> Breakpoints
  | [] => []
  | .code t :: rest => marksFrom (offset + t.length) rest
  | .mark source :: rest => ⟨source, offset⟩ :: marksFrom offset rest

end Piece

/-! ## Expressions as code -/

/-- Replaces the first `in` between two blanks, blanks included, by ` of `. -/
def loopHead : Text -> Text
  | [] => []
  | a :: rest =>
    match rest with
    | 'i' :: 'n' :: b :: after =>
      if Text.isBlank a && Text.isBlank b then " of ".toList ++ after else a :: loopHead rest
    | _ => a :: loopHead rest

namespace Expression

def opensBlock (x : Expression) : Bool :=
  match x.kind with
  | .binding => false
  | .interpolation => false
  | _ => true

def pieces (x : Expression) : List Piece :=
  match x.kind with
  | .condition => [.code "if(".toList, .mark x.start, .code (x.text ++ ")\x7b".toList)]
  | .elseCondition => [.code "else if(".toList, .mark x.start, .code (x.text ++ ")\x7b".toList)]
  | .otherwise => [.code "else\x7b".toList]
  | .loop => [.code "for(const ".toList, .mark x.start, .code (loopHead x.text ++ ")\x7b".toList)]
  | _ => [.mark x.start, .code (x.text ++ ";".toList)]

end Expression

/-! ## Elements as code -/

namespace Item

variable {α : Type}

def hasKind (kind : ExpressionKind) : Item α -> Bool
  | .expression x => x.kind == kind
  | .child _ => false

/-- Moves the first loop before the first condition, so that the condition sees its variables. -/
def loopFirst (items : List (Item α)) : List (Item α) :=
  match items.findIdx? (hasKind .condition), items.findIdx? (hasKind .loop) with
  | some condition, some loop =>
    if condition < loop then
      items.take condition ++ (items.drop loop).take 1 ++
        (items.drop condition).take (loop - condition) ++ items.drop (loop + 1)
    else items
  | _, _ => items

/-- The code of one item; a child is already code. -/
def pieces : Item (List Piece) -> List Piece
  | .expression x => x.pieces
  | .child code => code

def opensBlock : Item α -> Bool
  | .expression x => x.opensBlock
  | .child _ => false

/-- The code of what an element holds: its blocks are closed after all of it. -/
def block (items : List (Item (List Piece))) : List Piece :=
  let ordered := loopFirst items
  ordered.flatMap pieces ++ [.code (List.replicate (ordered.countP opensBlock) '\x7d')]

end Item

def Element.code (t : Text) (e : Element) : List Piece :=
  e.foldItems t Item.block

/-! ## The method -/

/-- A render method and the breakpoints that tie it to the template. -/
structure Render where
  text : Text
  breakpoints : Breakpoints
  deriving DecidableEq, Repr

namespace Render

def header : Text := "render()\x7b".toList

def footer : Text := "\x7d".toList

def preamble (names : List Text) : Text :=
  "const \x7b".toList ++ Text.joinWith [','] names ++ "\x7d = this;".toList

def ofPieces (offset : Nat) (names : List Text) (pieces : List Piece) : Render :=
  let lead := header ++ preamble names
  { text := lead ++ Piece.textOf pieces ++ footer
    breakpoints := Piece.marksFrom (offset + lead.length) pieces }

def ofTemplate (t : Text) (template : Element) (offset : Nat) (names : List Text) : Render :=
  ofPieces offset names (template.code t)

def ofElements (t : Text) (roots : List Element) (offset : Nat) (names : List Text) : Render :=
  ofPieces offset names (roots.flatMap (·.code t))

end Render
end SfcServer
