import SfcServer.Component.Describe
import SfcServer.Service.Basic
import SfcServer.Template.Branch

/-!
# Answers from the markup

Hovers and proposals in plain markup, the outline, matching tags, and branches of the
template that belong to nothing.
-/

namespace SfcServer

variable [ScriptParser]
namespace Service

/-! ## Hovers -/

def propOf? (c : Component) (attributeName : Text) : Option Member :=
  let name := ((Text.dropLead? "v-bind:".toList attributeName).or
    (Text.dropLead? ":".toList attributeName)).getD attributeName
  (c.ofKind .prop).find? (·.name = name)

def codeBlock (code : Text) : Text :=
  let fence := List.replicate 3 Text.backtick
  fence ++ "typescript\n".toList ++ code ++ '\n' :: fence

def withDocumentation (t documentation : Text) : Text :=
  if documentation.isEmpty then t else t ++ "\n\n".toList ++ documentation

def describeAttribute? (tag : Text) (c : Option Component) (name : Text) : Option Text :=
  match c.bind fun c => propOf? c name with
  | some m =>
    let code := "(property) ".toList ++ tag ++ '.' :: m.name ++ ": ".toList ++ m.type
    some (withDocumentation (codeBlock code) m.documentation)
  | none => (Directive.documentation? name).map String.toList

/-- What is said of the first token at an offset that has a description. -/
def hoverAmong (lines : Lines) (tag : Text) (c : Option Component) (offset : Nat) :
    List Token -> Option Hover
  | [] => none
  | t :: rest =>
    if t.offset > offset then none
    else if offset > t.stop then hoverAmong lines tag c offset rest
    else
      let range := lines.rangeOf t.offset t.stop
      match t.kind, c with
      | .startTag, some component => some ⟨component.describe tag, range⟩
      | .attributeName, c => (describeAttribute? tag c t.text).map fun value => ⟨value, range⟩
      | _, c => hoverAmong lines tag c offset rest

def markupHover (uri : Text) (located : Located) : Service (Option Hover) := do
  match located.markup.elementAt? located.offset with
  | none => return none
  | some e =>
    let component := (← registered uri).get? e.tag
    let text := located.entry.text
    return hoverAmong located.entry.lines e.tag component located.offset
      (scan text e.start e.contentStart)

/-! ## Proposals -/

def classKind : Nat := 7
def propertyKind : Nat := 10
def keywordKind : Nat := 14

def proposeProp (m : Member) : CompletionItem where
  label := ':' :: m.name
  kind := some propertyKind
  detail := some m.type
  documentation := if m.documentation.isEmpty then none else some m.documentation
  insertText := some (':' :: m.name ++ "=\"$1\"".toList)
  isSnippet := true

def proposeDirective (d : Directive.Entry) : CompletionItem where
  label := d.name.toList
  kind := some keywordKind
  documentation := some d.documentation.toList
  insertText := some d.snippet.toList
  isSnippet := true

def proposeComponent (name : Text) (c : Component) : CompletionItem where
  label := name
  kind := some classKind
  detail := some ("component ".toList ++ c.name)
  documentation := some (c.describe name)

def isTagChar (c : Char) : Bool :=
  Text.isWordChar c || c == '-'

/-- Whether a text ends with the beginning of a start tag, perhaps before a last line feed. -/
def endsInTagStart (t : Text) : Bool :=
  let opens (r : Text) := (r.dropWhile isTagChar).head? = some '<'
  match t.reverse with
  | '\n' :: r => opens r
  | r => opens r

def markupProposals (uri : Text) (located : Located) : Service (List CompletionItem) := do
  let text := located.entry.text
  let element := located.markup.elementAt? located.offset
  let components ← registered uri
  if (element.map (·.inStartTag located.offset)).getD false then
    let component := element.bind fun e => components.get? e.tag
    let props := (component.map fun c => c.ofKind .prop).getD []
    return props.map proposeProp ++ Directive.entries.map proposeDirective
  else
    let start := (element.map (·.start)).getD 0
    if endsInTagStart (text.slice start located.offset) then
      return components.map fun (name, c) => proposeComponent name c
    else return []

/-! ## Outline and matching tags -/

mutual

def symbolOf (lines : Lines) : Element -> Symbol
  | ⟨tag, start, stop, startTagEnd, endTagStart, closed, attributes, children⟩ =>
    let e : Element := ⟨tag, start, stop, startTagEnd, endTagStart, closed, attributes, children⟩
    ⟨e.label, lines.rangeOf start stop, lines.rangeOf (start + 1) (start + 1 + tag.length),
      symbolsOf lines children⟩

/-- The outline of siblings; an element without a name is left out. -/
def symbolsOf (lines : Lines) : List Element -> List Symbol
  | [] => []
  | e :: rest =>
    if e.tag.isEmpty then symbolsOf lines rest else symbolOf lines e :: symbolsOf lines rest

end

def symbols (uri : Text) : Service (List Symbol) := do
  match ← entry? uri, ← markup? uri with
  | some e, some d => return symbolsOf e.lines d.roots
  | _, _ => return []

def tagSpans (e : Element) : List (Nat × Nat) :=
  let span (start : Nat) := (start, start + e.tag.length)
  let closing := if e.closed then e.endTagStart.map fun start => span (start + 2) else none
  span (e.start + 1) :: closing.toList

def highlights (uri : Text) (place : Place) : Service (List Range) := do
  match ← entry? uri, ← markup? uri with
  | some entry, some d =>
    let lines := entry.lines
    let offset := lines.offsetAt place
    match d.elementAt? offset with
    | none => return []
    | some e =>
      let spans := tagSpans e
      if spans.any fun (start, stop) => start ≤ offset && offset ≤ stop then
        return spans.map fun (start, stop) => lines.rangeOf start stop
      else return []
  | _, _ => return []

/-! ## Branches without a beginning -/

def ownSource : Text := "vue-class".toList

def orphanDiagnostic (lines : Lines) (x : Expression) : Diagnostic where
  range := lines.rangeOf
    (if x.kind = .otherwise then (x.start : Int) - x.name.length else x.start) x.stop
  message := Text.code x.name ++ " has no preceding `v-if` or `v-else-if` element".toList
  severity := some .warning
  source := ownSource

def templateDiagnostics (uri : Text) : Service (List Diagnostic) := do
  match ← entry? uri, ← markup? uri with
  | some e, some d =>
    return ((d.template?.map (·.orphans e.text)).getD []).map (orphanDiagnostic e.lines)
  | _, _ => return []

end Service
end SfcServer
