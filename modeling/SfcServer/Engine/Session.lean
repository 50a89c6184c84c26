import SfcServer.Engine.Answer
import SfcServer.Engine.Link

/-!
# Sessions

A session is the link seen as a place to ask about files.  It keeps the version and the
lines of every file that it has sent, so that a file is sent again only when it has
changed, and so that questions and answers can speak of offsets.
-/

namespace SfcServer

/-- The link to an engine, and what was sent over it. -/
structure Session where
  /-- None when there is no engine to talk to. -/
  link : Option Link
  initialized : Bool := false
  files : Keyed Synced := []
  /-- Whether someone waits for diagnostics. -/
  subscribed : Bool := false
  deriving Repr

/-- A session after an operation, and the events of the operation. -/
structure Sessioned where
  session : Session
  events : List LinkEvent := []

namespace Session

def ofLink (link : Option Link) : Session :=
  { link := link.map fun l => { l with subscribed := true } }

def available (s : Session) : Bool :=
  s.initialized && (s.link.map (·.running)).getD false

def linesOf? (s : Session) (fileName : Text) : Option Lines :=
  (Keyed.get? fileName s.files).map (·.lines)

def onLink (f : Link -> Linked) (s : Session) : Sessioned :=
  match s.link with
  | none => ⟨s, []⟩
  | some l =>
    let next := f l
    ⟨{ s with link := some next.link }, next.events⟩

/-! ## Documents -/

def reference (fileName : Text) : String × Json :=
  ("textDocument", .obj [("uri", .ofText fileName)])

def opening (fileName : Text) (version : Int) (text : Text) : Json :=
  .obj [("textDocument", .obj [("uri", .ofText fileName), ("languageId", .str "typescript"),
    ("version", .int version), ("text", .ofText text)])]

def change (fileName : Text) (version : Int) (text : Text) : Json :=
  .obj [("textDocument", .obj [("uri", .ofText fileName), ("version", .int version)]),
    ("contentChanges", .arr [.obj [("text", .ofText text)]])]

/-- Sends a file, unless this version of it was sent already. -/
def sync (fileName : Text) (version : Int) (text : Text) (s : Session) : Sessioned :=
  if !s.available then ⟨s, []⟩
  else
    let send (method : String) (params : Json) : Sessioned :=
      let sent := s.onLink (Link.notify method params)
      let files := Keyed.put fileName ⟨version, Lines.ofText text⟩ s.files
      ⟨{ sent.session with files := files }, sent.events⟩
    match Keyed.get? fileName s.files with
    | none => send "textDocument/didOpen" (opening fileName version text)
    | some synced =>
      if synced.version = version then ⟨s, []⟩
      else send "textDocument/didChange" (change fileName version text)

def close (fileName : Text) (s : Session) : Sessioned :=
  let known := Keyed.contains fileName s.files
  let s := { s with files := Keyed.erase fileName s.files }
  if known && s.available then
    s.onLink (Link.notify "textDocument/didClose" (.obj [reference fileName]))
  else ⟨s, []⟩

def stop (s : Session) : Session :=
  { s with link := s.link.map Link.stop, initialized := false, files := [] }

/-! ## Requests -/

def ofOutcome : Outcome -> Except Fault Json
  | .ok value => .ok value
  | .error message => .error (.engine message)

def ask (reply : List (String × Json)) (method : String) (params : Json) (s : Session) :
    Except Fault Json × Sessioned :=
  match s.link with
  | none => (.ok .null, ⟨s, []⟩)
  | some l =>
    let (outcome, next) := l.ask reply method params
    (ofOutcome outcome, ⟨{ s with link := some next.link }, next.events⟩)

/-- Tells the engine who talks to it, and that the session has begun once it has answered. -/
def introduce (reply : List (String × Json)) (params : Json) (s : Session) :
    Except Fault Json × Sessioned :=
  match s.link with
  | none => (.ok .null, ⟨s, []⟩)
  | some _ =>
    let (answer, asked) := s.ask reply "initialize" params
    match answer with
    | .error f => (.error f, asked)
    | .ok value =>
      let told := asked.session.onLink (Link.notify "initialized" (.obj []))
      (.ok value, ⟨{ told.session with initialized := true }, asked.events ++ told.events⟩)

def position? (fileName : Text) (offset : Int) (s : Session) :
    Option (Lines × List (String × Json)) := do
  let lines ← s.linesOf? fileName
  guard s.available
  let place := lines.placeAt offset
  return (lines, [reference fileName,
    ("position", .obj [("line", .int place.line), ("character", .int place.column)])])

def query (reply : List (String × Json)) (method : String) (fileName : Text) (offset : Int)
    (more : List (String × Json)) (absent : α) (read : Lines -> Json -> Except Fault α)
    (s : Session) : Except Fault α × Sessioned :=
  match s.position? fileName offset with
  | none => (.ok absent, ⟨s, []⟩)
  | some (lines, params) =>
    let (answer, asked) := s.ask reply method (.obj (params ++ more))
    (answer.bind (read lines), asked)

def quickInfo (reply : List (String × Json)) (fileName : Text) (offset : Int) (s : Session) :
    Except Fault (Option QuickInfo) × Sessioned :=
  s.query reply "textDocument/hover" fileName offset [] none fun lines =>
    QuickInfo.ofResult lines offset

def completions (reply : List (String × Json)) (fileName : Text) (offset : Int) (context : Json)
    (s : Session) : Except Fault (List Proposal) × Sessioned :=
  let more := if context.isTruthy then [("context", context)] else []
  s.query reply "textDocument/completion" fileName offset more [] fun _ => Proposal.ofResult

def definition (reply : List (String × Json)) (fileName : Text) (offset : Int) (s : Session) :
    Except Fault (List Target) × Sessioned :=
  s.query reply "textDocument/definition" fileName offset [] [] fun _ =>
    Target.ofResult s.files

/-! ## Diagnostics -/

/-- What the subscriber gets of diagnostics that arrived: those of files that were sent. -/
def findings (s : Session) (params : Json) : Except Fault (Option (Text × List Finding)) := do
  match ← Finding.file? s.files params with
  | none => return none
  | some (fileName, lines) =>
    if s.subscribed then return some (fileName, ← Finding.ofParams lines params) else return none

end Session
end SfcServer
