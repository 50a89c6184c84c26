import SfcServer.Engine.Hover
import SfcServer.Json.Access
import SfcServer.Keyed
import SfcServer.Offset.Lines

/-!
# Answers of the engine

The engine speaks of lines and columns in the files it was sent.  Its answers are read
into values that speak of offsets.
-/

namespace SfcServer

/-! ## Ranges -/

namespace Lines

/-- The offset of a place given by values; the column only matters on a line that exists. -/
def offsetOfValues (l : Lines) (line column : Json) : Except Fault Nat :=
  let within (n : Int) : Except Fault Nat :=
    if n < 0 then .ok 0
    else if n ≥ l.starts.length then .ok l.size
    else
      match column.asInt? with
      | some c => .ok (l.offsetAt ⟨n, c⟩)
      | none => .error .wrongKind
  match line with
  | .real x =>
    if x.blt .zero then .ok 0
    else
      match Double.ofInt? l.starts.length with
      | some count => if count.ble x then .ok l.size else .error .wrongKind
      | none => .error .wrongKind
  | other =>
    match other.asInt? with
    | some n => within n
    | none => .error .wrongKind

/-- The offset of a place; missing parts count as zero. -/
def offsetOfPlace (l : Lines) (place : Json) : Except Fault Nat := do
  let line ← place.memberOr "line" (.int 0)
  let column ← place.memberOr "character" (.int 0)
  l.offsetOfValues line column

/-- Start and length of a range.  A missing start is the first place, a missing end is the start. -/
def spanOfRange (l : Lines) (range : Json) : Except Fault (Nat × Nat) := do
  let start := (Json.firstPresent [← range.memberOr "start" .null]).getD (.obj [])
  let stop := (Json.firstPresent [← range.memberOr "end" .null]).getD start
  let startOffset ← l.offsetOfPlace start
  let stopOffset ← l.offsetOfPlace stop
  return (startOffset, stopOffset - startOffset)

end Lines

/-! ## Files -/

structure Synced where
  version : Int
  lines : Lines
  deriving Repr

def linesNamed? (files : Keyed Synced) (name : Json) : Except Fault (Option Lines) :=
  match name with
  | .str s => .ok ((Keyed.get? s.toList files).map (·.lines))
  | other => if other.isKey then .ok none else .error .wrongKind

/-! ## Descriptions of names -/

/-- What the engine says of the name in a span. -/
structure QuickInfo where
  start : Int
  length : Nat
  contents : HoverContents
  deriving Repr

def QuickInfo.ofResult (lines : Lines) (offset : Int) (result : Json) :
    Except Fault (Option QuickInfo) := do
  if !result.isTruthy then return none
  if !(← result.holds "contents") then return none
  match result with
  | .obj members =>
    let contents ← HoverContents.ofJson ((Json.lookup "contents" members).getD .null)
    match (Json.lookup "range" members).bind fun range => Json.firstPresent [range] with
    | some range =>
      let (start, length) ← lines.spanOfRange range
      return some ⟨start, length, contents⟩
    | none => return some ⟨offset, 0, contents⟩
  | _ => .error .wrongKind

/-! ## Completions -/

/-- A proposal of the engine, with the values that it gave. -/
structure Proposal where
  name : Json
  kind : Json
  detail : Json
  sortText : Json
  insertText : Json
  deriving Repr

namespace Proposal

def ofItem : Json -> Except Fault Proposal
  | .obj members =>
    let value (name : String) := (Json.lookup name members).getD .null
    match Json.lookup "label" members with
    | some label =>
      .ok ⟨label, value "kind", value "detail", value "sortText", value "insertText"⟩
    | none => .error .missingMember
  | _ => .error .wrongKind

def ofResult (result : Json) : Except Fault (List Proposal) := do
  if !result.isTruthy then return []
  let items ← match result with
    | .arr items => .ok items
    | other => (other.memberOr "items" (.arr [])).bind Json.elements
  items.mapM ofItem

end Proposal

/-! ## Definitions -/

/-- The place of a definition.  The span is known for files that were sent. -/
structure Target where
  uri : Json
  range : Json
  span : Option (Nat × Nat)
  deriving Repr

namespace Target

/-- Reads one place; none when it lacks a document or a range. -/
def ofItem (files : Keyed Synced) (item : Json) : Except Fault (Option Target) := do
  let uri := Json.firstPresent [← item.memberOr "uri" .null, ← item.memberOr "targetUri" .null]
  let range := Json.firstPresent
    [← item.memberOr "range" .null, ← item.memberOr "targetSelectionRange" .null]
  match uri, range with
  | some uri, some range =>
    match ← linesNamed? files uri with
    | some lines => return some ⟨uri, range, some (← lines.spanOfRange range)⟩
    | none => return some ⟨uri, range, none⟩
  | _, _ => return none

def ofResult (files : Keyed Synced) (result : Json) : Except Fault (List Target) := do
  if !result.isTruthy then return []
  let items ← match result with
    | .obj members => .ok [.obj members]
    | other => other.elements
  return (← items.mapM (ofItem files)).filterMap id

end Target

/-! ## Diagnostics -/

/-- A diagnostic of the engine, with the values that it gave. -/
structure Finding where
  start : Int
  length : Int
  message : Json
  severity : Json := .null
  code : Json := .null
  source : Json := .null
  deriving Repr

namespace Finding

def ofItem (lines : Lines) (item : Json) : Except Fault (Option Finding) := do
  match Json.firstPresent [← item.memberOr "range" .null] with
  | none => return none
  | some range =>
    let (start, length) ← lines.spanOfRange range
    let value (name : String) := item.memberOr name .null
    return some ⟨start, length, ← item.memberOr "message" (.str ""), ← value "severity",
      ← value "code", ← value "source"⟩

def file? (files : Keyed Synced) (params : Json) : Except Fault (Option (Text × Lines)) := do
  match Json.firstPresent [← params.memberOr "uri" .null] with
  | none => return none
  | some name =>
    match name, ← linesNamed? files name with
    | .str file, some lines => return some (file.toList, lines)
    | _, _ => return none

def ofParams (lines : Lines) (params : Json) : Except Fault (List Finding) := do
  let items ← match Json.firstPresent [← params.memberOr "diagnostics" .null] with
    | some values => values.elements
    | none => .ok []
  return (← items.mapM (ofItem lines)).filterMap id

end Finding
end SfcServer
