import SfcServer.Fault
import SfcServer.Json.Basic
import SfcServer.Text.Letter

/-!
# Contents of a hover

The engine describes a name by a signature and by documentation, in one of several
shapes: a text, a marked text, or a list of such.  Here the two are separated.
-/

namespace SfcServer

/-- What the engine says of a name.  A signature in a marked text may be any value. -/
structure HoverContents where
  display : Json
  documentation : Text
  deriving Repr

namespace HoverContents

def fence : Text := List.replicate 3 Text.backtick

/-- The code before the fence that closes it, how long both are, and the line feed between. -/
def closing? : Text -> Option (Text × Nat)
  | [] => none
  | c :: rest =>
    if c = '\n' ∧ fence.isPrefixOf rest then some ([], 4)
    else if fence.isPrefixOf (c :: rest) then some ([], 3)
    else (closing? rest).map fun (code, length) => (c :: code, length + 1)

/-- The code of a block that a text starts with, and the length of the block. -/
def blockAt? (t : Text) : Option (Text × Nat) := do
  let rest ← Text.dropLead? fence t
  let language := rest.takeWhile Text.isWordChar
  match rest.drop language.length with
  | '\n' :: body =>
    let (code, length) ← closing? body
    return (code, 3 + language.length + 1 + length)
  | _ => none

/-- The first block of code: the text before it, the code, and the text after it. -/
def splitBlock? : Text -> Option (Text × Text × Text)
  | [] => none
  | c :: rest =>
    match blockAt? (c :: rest) with
    | some (code, length) => some ([], code, (c :: rest).drop length)
    | none => (splitBlock? rest).map fun (before, code, after) => (c :: before, code, after)

/-- A text with a block of code: the code is the signature. -/
def ofMarkdown (t : Text) : HoverContents :=
  match splitBlock? t with
  | some (before, code, after) =>
    ⟨Json.ofText (Text.trim code), Text.trim (before ++ after)⟩
  | none => ⟨.str "", Text.trim t⟩

def ofMembers (members : List (String × Json)) : Except Fault HoverContents :=
  let value := (Json.lookup "value" members).getD (.str "")
  if (Json.lookup "language" members).isSome then .ok ⟨value, []⟩
  else
    match value with
    | .str s => .ok (ofMarkdown s.toList)
    | _ => .error .wrongKind

def add (first more : HoverContents) : HoverContents where
  display := if first.display.isTruthy then first.display
    else if more.display.isTruthy then more.display else .str ""
  documentation :=
    if more.documentation.isEmpty then first.documentation
    else if first.documentation.isEmpty then more.documentation
    else first.documentation ++ "\n\n".toList ++ more.documentation

mutual

def ofJson : Json -> Except Fault HoverContents
  | .str s => .ok ⟨.str "", s.toList⟩
  | .obj members => ofMembers members
  | .arr parts => ofParts ⟨.str "", []⟩ parts
  | _ => .ok ⟨.str "", []⟩

def ofParts (found : HoverContents) : List Json -> Except Fault HoverContents
  | [] => .ok found
  | part :: rest => do ofParts (found.add (← ofJson part)) rest

end

end HoverContents
end SfcServer
