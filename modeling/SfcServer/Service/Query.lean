import SfcServer.Json.Display
import SfcServer.Service.Markup

/-!
# Answers from the engine

Positions in expressions and in the script are carried over to the projection, where
the engine answers; its answers are carried back to the document.
-/

namespace SfcServer

variable [ScriptParser]
namespace Service

/-! ## Hovers -/

/-- The signature that is shown; in an expression members are named as such. -/
def shownDisplay (region : Region) (c : Component) (display : Json) : Except Fault Text :=
  match region, display with
  | .expression, .str s => .ok (c.describeDisplay s.toList)
  | .expression, _ => .error .wrongKind
  | _, value => .ok (if value.isTruthy then (Json.display value).toList else [])

def hoverText (display documentation : Text) : Text :=
  if display.isEmpty then documentation
  else withDocumentation (codeBlock display) documentation

def engineHover (uri : Text) (located : Located) : Service (Option Hover) := do
  match ← engineTarget? uri located with
  | none => return none
  | some (p, offset) =>
    let info ← orReport (.error "TypeScript hover failed") none
      (ask none fun reply => Session.quickInfo reply p.fileName offset)
    match info with
    | none => return none
    | some info =>
      let contents := info.contents
      if !contents.display.isTruthy && contents.documentation.isEmpty then return none
      let display ← shownDisplay located.region p.component contents.display
      let start := p.toDocument info.start
      return some ⟨hoverText display contents.documentation,
        located.entry.lines.rangeOf start (start + info.length)⟩

def hover (uri : Text) (place : Place) : Service (Option Hover) := do
  match ← locate uri place with
  | none => return none
  | some located =>
    match located.region with
    | .markup => markupHover uri located
    | .none => return none
    | _ => engineHover uri located

/-! ## Proposals -/

def proposalKinds : List Nat :=
  (List.range 25).map (· + 1)

/-- The kinds that an expression can use: variables, constants, fields and properties. -/
def expressionKinds : List Nat :=
  [6, 21, 5, 10]

def scriptItem (p : Proposal) : Except Fault CompletionItem :=
  return {
    label := ← p.name.textOf
    kind := p.kind.oneOf? proposalKinds
    detail := ← p.detail.textOrNone
    sortText := ← p.sortText.textOrNone
    insertText := ← p.insertText.textOrNone }

def sortsAmongGlobals (p : Proposal) : Except Fault Bool :=
  if !p.sortText.isTruthy then .ok false
  else
    match p.sortText with
    | .str s => .ok (("15".toList).isPrefixOf s.toList)
    | _ => .error .wrongShape

def fitsExpression (p : Proposal) : Except Fault Bool :=
  if !p.kind.isKey then .error .wrongKind
  else if (p.kind.oneOf? expressionKinds).isNone then .ok false
  else (sortsAmongGlobals p).map (!·)

def expressionItem (c : Component) (p : Proposal) : Except Fault CompletionItem := do
  let member := match p.name with
    | .str s => c.find? s.toList
    | _ => none
  let detail ← match member with
    | some m => .ok (some (m.title c.name ++ ": ".toList ++ m.type))
    | none => p.detail.textOrNone
  return {
    label := ← p.name.textOf
    kind := some propertyKind
    detail := detail
    documentation := (member.map (·.documentation)).filter (!·.isEmpty)
    sortText := ← p.sortText.textOrNone }

def expressionItems (c : Component) : List Proposal -> Except Fault (List CompletionItem)
  | [] => .ok []
  | p :: rest => do
    if ← fitsExpression p then
      let item ← expressionItem c p
      return item :: (← expressionItems c rest)
    else expressionItems c rest

def engineProposals (uri : Text) (located : Located) (context : Json) :
    Service (List CompletionItem) := do
  match ← engineTarget? uri located with
  | none => return []
  | some (p, offset) =>
    let proposals ← orReport (.error "TypeScript completion failed") []
      (ask [] fun reply => Session.completions reply p.fileName offset context)
    match located.region with
    | .script => proposals.mapM fun proposal => scriptItem proposal
    | _ => expressionItems p.component proposals

def complete (uri : Text) (place : Place) (context : Json) : Service (List CompletionItem) := do
  match ← locate uri place with
  | none => return []
  | some located =>
    match located.region with
    | .markup => markupProposals uri located
    | .none => return []
    | _ => engineProposals uri located context

/-! ## Definitions -/

def declaredMember? (p : Projection) (start length : Nat) : Option Member :=
  if p.inPreamble start then p.component.find? (p.text.slice start (start + length)) else none

def documentRange (entry : Entry) (p : Projection) (start length : Nat) : Range :=
  match declaredMember? p start length with
  | some m =>
    let start := p.scriptStart + m.nameStart
    entry.lines.rangeOf start (start + m.name.length)
  | none =>
    let start := p.toDocument start
    entry.lines.rangeOf start (start + length)

def mapTarget (t : Target) : Service (Option Location) := do
  match t.uri with
  | .str s =>
    let fileName := s.toList
    let uri := documentOf fileName
    match t.span with
    | some (start, length) =>
      if uri = fileName then return some ⟨fileName, ← Range.ofJson t.range⟩
      match ← load fun s => s.projection uri, ← entry? uri with
      | some p, some entry => return some ⟨uri, documentRange entry p start length⟩
      | _, _ => return none
    | none => return some ⟨fileName, ← Range.ofJson t.range⟩
  | _ => throw .wrongShape

def definition (uri : Text) (place : Place) : Service (Option (List Location)) := do
  match ← locate uri place with
  | none => return none
  | some located =>
    if located.region ≠ .expression ∧ located.region ≠ .script then return none
    match ← engineTarget? uri located with
    | none => return none
    | some (p, offset) =>
      let targets ← orReport (.error "TypeScript definition failed") []
        (ask [] fun reply => Session.definition reply p.fileName offset)
      let locations := (← targets.mapM mapTarget).filterMap id
      return if locations.isEmpty then none else some locations

/-! ## Diagnostics of the engine -/

def severityOf? (j : Json) : Option Severity :=
  match j.oneOf? [1, 2, 3, 4] with
  | some 1 => some .error
  | some 2 => some .warning
  | some 3 => some .information
  | some 4 => some .hint
  | _ => none

def mapFinding (entry : Entry) (p : Projection) (f : Finding) : Except Fault Diagnostic := do
  let start := p.toDocument f.start
  return {
    range := entry.lines.rangeOf start (start + f.length)
    message := ← f.message.textOf
    severity := severityOf? f.severity
    code := f.code
    source := ← if f.source.isTruthy then f.source.textOf else .ok "ts".toList }

def mapFindings (uri : Text) (findings : List Finding) : Service (List Diagnostic) := do
  let entry ← entry? uri
  let p ← load fun s => s.projection uri
  match entry, p with
  | some entry, some p => findings.mapM fun f => mapFinding entry p f
  | _, _ => return []

/-! ## Positions -/

def toProjected (uri : Text) (place : Place) : Service (Option Place) := do
  match ← locate uri place with
  | none => return none
  | some located =>
    let p ← projection? uri
    return p.bind fun p => (project? p located).map p.lines.placeAt

def ofProjected (uri : Text) (place : Place) : Service (Option Place) := do
  let entry ← entry? uri
  let p ← projection? uri
  match entry, p with
  | some entry, some p =>
    return some (entry.lines.placeAt (p.toDocument (p.lines.offsetAt place)))
  | _, _ => return none

end Service
end SfcServer
