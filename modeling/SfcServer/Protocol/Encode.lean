import SfcServer.Protocol.Value

/-!
# Encoding of protocol values

The JSON form of the values that an editor gets.  Parts that are absent are left out.
-/

namespace SfcServer

def Json.optional (name : String) (f : α -> Json) : Option α -> List (String × Json)
  | none => []
  | some a => [(name, f a)]

def Json.markdown (t : Text) : Json :=
  .obj [("kind", .str "markdown"), ("value", .ofText t)]

def Place.toJson (p : Place) : Json :=
  .obj [("line", .int p.line), ("character", .int p.column)]

def Range.toJson (r : Range) : Json :=
  .obj [("start", r.start.toJson), ("end", r.stop.toJson)]

def Hover.toJson (h : Hover) : Json :=
  .obj [("contents", .markdown h.contents), ("range", h.range.toJson)]

def Location.toJson (l : Location) : Json :=
  .obj [("uri", .ofText l.uri), ("range", l.range.toJson)]

def Severity.number : Severity -> Nat
  | error => 1
  | warning => 2
  | information => 3
  | hint => 4

def Diagnostic.toJson (d : Diagnostic) : Json :=
  .obj ([("range", d.range.toJson), ("message", .ofText d.message)] ++
    Json.optional "severity" (fun s => .ofNat s.number) d.severity ++
    (match d.code with
      | .null => []
      | code => [("code", code)]) ++
    [("source", .ofText d.source)])

def CompletionItem.toJson (i : CompletionItem) : Json :=
  .obj (("label", .ofText i.label) :: Json.optional "kind" .ofNat i.kind ++
    Json.optional "detail" .ofText i.detail ++
    Json.optional "documentation" .markdown i.documentation ++
    Json.optional "sortText" .ofText i.sortText ++
    Json.optional "insertText" .ofText i.insertText ++
    if i.isSnippet then [("insertTextFormat", .int 2)] else [])

def CompletionItem.listToJson (items : List CompletionItem) : Json :=
  .obj [("isIncomplete", .bool false), ("items", .arr (items.map toJson))]

def Symbol.kindNumber : Nat := 8

mutual

def Symbol.toJson : Symbol -> Json
  | ⟨name, range, selection, children⟩ =>
    .obj [("name", .ofText name), ("kind", .ofNat Symbol.kindNumber), ("range", range.toJson),
      ("selectionRange", selection.toJson), ("children", .arr (Symbol.allToJson children))]

def Symbol.allToJson : List Symbol -> List Json
  | [] => []
  | s :: rest => Symbol.toJson s :: Symbol.allToJson rest

end

def Range.highlightToJson (r : Range) : Json :=
  .obj [("range", r.toJson), ("kind", .int 2)]

def Publication.toJson (p : Publication) : Json :=
  .obj ([("uri", .ofText p.uri), ("diagnostics", .arr (p.diagnostics.map Diagnostic.toJson))] ++
    Json.optional "version" .int p.version)

end SfcServer
