import SfcServer.Fault
import SfcServer.Json.Access
import SfcServer.Number.Double
import SfcServer.Offset.Lines
import SfcServer.Text.Numeral

/-!
# Values of the protocol

What the server sends to an editor: ranges, hovers, proposals, outlines, diagnostics.
-/

namespace SfcServer

structure Range where
  start : Place
  stop : Place
  deriving DecidableEq, Repr

/-- The range between two offsets, both clamped to the text and put in order. -/
def Lines.rangeOf (l : Lines) (start stop : Int) : Range :=
  let first := l.clamp start
  let last := max (min stop l.size) first
  ⟨l.placeAt first, l.placeAt last⟩

/-- What is shown for the name at a place. -/
structure Hover where
  /-- Markdown. -/
  contents : Text
  range : Range
  deriving DecidableEq, Repr

structure Location where
  uri : Text
  range : Range
  deriving DecidableEq, Repr

/-- How serious a diagnostic is; most serious first. -/
inductive Severity where
  | error
  | warning
  | information
  | hint
  deriving DecidableEq, Repr

/-- Something that is wrong with a part of a document. -/
structure Diagnostic where
  range : Range
  message : Text
  severity : Option Severity := none
  /-- Any value that the engine gave, or `null`. -/
  code : Json := .null
  source : Text
  deriving Repr

/-- A proposal for what to write at a place. -/
structure CompletionItem where
  label : Text
  /-- The number of its kind in the protocol. -/
  kind : Option Nat := none
  detail : Option Text := none
  /-- Markdown. -/
  documentation : Option Text := none
  sortText : Option Text := none
  insertText : Option Text := none
  /-- Whether the text to insert has places to fill in. -/
  isSnippet : Bool := false
  deriving DecidableEq, Repr

structure Symbol where
  name : Text
  range : Range
  selection : Range
  children : List Symbol
  deriving Repr

/-- The diagnostics of a document, and the version they belong to. -/
structure Publication where
  uri : Text
  diagnostics : List Diagnostic
  version : Option Int
  deriving Repr

/-! ## Reading -/

/-- The largest line or column, `2 ^ 31 - 1`. -/
def Place.limit : Int := 2147483647

def Place.check (line column : Int) : Except Fault Place :=
  if 0 ≤ line ∧ line ≤ Place.limit ∧ 0 ≤ column ∧ column ≤ Place.limit then .ok ⟨line, column⟩
  else .error .outOfRange

def Json.toWhole? : Json -> Option Int
  | .int n => some n
  | .bool b => some (if b then 1 else 0)
  | .real x => x.truncate?
  | .str s => Text.integer? s.toList
  | _ => none

def Place.ofJson? (j : Json) : Option Place := do
  let line ← (← j.member? "line").toWhole?
  let column ← (← j.member? "character").toWhole?
  (Place.check line column).toOption

def Range.ofJson (j : Json) : Except Fault Range :=
  let range? := do
    let start ← Place.ofJson? (← j.member? "start")
    let stop ← Place.ofJson? (← j.member? "end")
    return Range.mk start stop
  match range? with
  | some range => .ok range
  | none => .error .badStructure

end SfcServer
