import SfcServer.Server.Message

/-!
# Requests of an editor

An editor sends calls: a method with parameters, and a number if it waits for an answer.
A call that the server knows is a message to it; what the step gave is written back as a
response, followed by a notification for each publication.
-/

namespace SfcServer

variable [ScriptParser]

structure Call where
  /-- What the answer has to carry; a call without it is a notification. -/
  id : Option Json
  method : String
  params : Json

namespace Call

def ofJson? (message : Json) : Option Call :=
  match message.member? "method" with
  | some (.str method) =>
    some ⟨message.member? "id", method, (message.member? "params").getD .null⟩
  | _ => none

/-! ## Parameters -/

def textAt? (names : List String) (params : Json) : Option Text :=
  match names.foldlM (fun value name => Json.member? name value) params with
  | some (.str s) => some s.toList
  | _ => none

def intAt? (names : List String) (params : Json) : Option Int :=
  (names.foldlM (fun value name => Json.member? name value) params).bind Json.asInt?

def itemsAt (name : String) (params : Json) : List Json :=
  match params.member? name with
  | some (.arr items) => items
  | _ => []

def uri? : Json -> Option Text :=
  textAt? ["textDocument", "uri"]

def version? : Json -> Option Int :=
  intAt? ["textDocument", "version"]

def place? (params : Json) : Option Place :=
  (params.member? "position").bind Place.ofJson?

/-! ## Messages -/

/-- The message that a call is, if the server knows the method and the parameters fit it. -/
def message? (c : Call) : Option Message :=
  let p := c.params
  match c.method with
  | "initialize" =>
    some (.start ((p.member? "initializationOptions").getD .null) (textAt? ["rootUri"] p))
  | "shutdown" => some .shutdown
  | "textDocument/didOpen" =>
    return .opened (← uri? p) (← textAt? ["textDocument", "text"] p) (← version? p)
  | "textDocument/didChange" =>
    return .changed (← uri? p) ((itemsAt "contentChanges" p).filterMap (textAt? ["text"]))
      (← version? p)
  | "textDocument/didClose" => (uri? p).map .closed
  | "workspace/didChangeWatchedFiles" =>
    some (.filesChanged ((itemsAt "changes" p).filterMap (textAt? ["uri"])))
  | "textDocument/hover" => return .hover (← uri? p) (← place? p)
  | "textDocument/completion" =>
    return .complete (← uri? p) (← place? p) ((p.member? "context").getD .null)
  | "textDocument/definition" => return .definition (← uri? p) (← place? p)
  | "textDocument/documentHighlight" => return .highlights (← uri? p) (← place? p)
  | "textDocument/documentSymbol" => (uri? p).map .symbols
  | "vue/virtualCode" => some (.virtualCode ⟨p, false⟩)
  | "vue/mapToGenerated" => some (.toProjected ⟨p, false⟩)
  | "vue/mapFromGenerated" => some (.ofProjected ⟨p, false⟩)
  | _ => none

/-! ## Responses -/

def capabilities : Json :=
  .obj [
    ("capabilities", .obj [
      ("textDocumentSync", .obj [("openClose", .bool true), ("change", .int 1)]),
      ("hoverProvider", .bool true),
      ("completionProvider", .obj [("triggerCharacters",
        .arr ([".", "<", ":", "@", " "].map .str))]),
      ("definitionProvider", .bool true),
      ("documentHighlightProvider", .bool true),
      ("documentSymbolProvider", .bool true)]),
    ("serverInfo", .obj [("name", .str "vue-class-language-server")])]

def internalError : Int := -32603

/-- The code of a method that the server does not know, or cannot call as asked. -/
def unknownMethod : Int := -32601

def failure (id : Json) (code : Int) (text : String) : Json :=
  .obj [("jsonrpc", .str "2.0"), ("id", id),
    ("error", .obj [("code", .int code), ("message", .str text)])]

/-- The responses to a call whose message was answered; a notification has none. -/
def responses (c : Call) (answer : Except Fault Json) : List Json :=
  match c.id, answer with
  | none, _ => []
  | some id, .ok value =>
    let result := if c.method = "initialize" then capabilities else value
    [.obj [("jsonrpc", .str "2.0"), ("id", id), ("result", result)]]
  | some id, .error _ => [failure id internalError "The request failed."]

def refusals (c : Call) : List Json :=
  match c.id with
  | none => []
  | some id => [failure id unknownMethod ("Cannot call " ++ c.method)]

def notification (p : Publication) : Json :=
  .obj [("jsonrpc", .str "2.0"), ("method", .str "textDocument/publishDiagnostics"),
    ("params", p.toJson)]

end Call
end SfcServer
