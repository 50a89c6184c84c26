import SfcServer.Engine.Frame
import SfcServer.Engine.Launch
import SfcServer.Json.Display
import SfcServer.Json.Reader
import SfcServer.Notice
import SfcServer.Text.Encoding

/-!
# The link to the engine

The engine runs as a process of its own, and messages go to it and come from it over a
pipe.  The link numbers the requests it sends, keeps those that wait for an answer, and
answers the few requests that the engine makes.

Every operation gives the link after it and the events that it caused, in order.
-/

namespace SfcServer

/-- How a request ended: with the value of its result, or with a message. -/
abbrev Outcome := Except Text Json

inductive LinkEvent where
  /-- A message was written to the pipe. -/
  | sent (message : Json)
  /-- A request was finished. -/
  | resolved (id : Nat) (outcome : Outcome)
  /-- Diagnostics arrived for whoever subscribed to them. -/
  | diagnostics (params : Json)
  | notice (n : Notice)

namespace LinkEvent

def reportRefused (accepts : Json -> Bool) (events : List LinkEvent) : List LinkEvent :=
  events.flatMap fun e =>
    match e with
    | .diagnostics params =>
      if accepts params then [e] else [e, .notice (.error "Diagnostics callback failed")]
    | _ => [e]

def sentIn (events : List LinkEvent) : List Json :=
  events.filterMap fun e => match e with
    | .sent message => some message
    | _ => none

def resolvedIn (events : List LinkEvent) : List (Nat × Outcome) :=
  events.filterMap fun e => match e with
    | .resolved id outcome => some (id, outcome)
    | _ => none

def diagnosticsIn (events : List LinkEvent) : List Json :=
  events.filterMap fun e => match e with
    | .diagnostics params => some params
    | _ => none

def noticesIn (events : List LinkEvent) : List Notice :=
  events.filterMap fun e => match e with
    | .notice n => some n
    | _ => none

end LinkEvent

/-- A link, with the requests that wait for an answer. -/
structure Link where
  /-- The command that starts the engine, if one was chosen. -/
  command : Option (List Text) := none
  /-- Whether a process is attached. -/
  attached : Bool := false
  /-- Whether the pipe to the process is broken. -/
  broken : Bool := false
  running : Bool := false
  /-- How often the newest process was told to end. -/
  terminations : Nat := 0
  /-- The number of the last request. -/
  lastId : Nat := 0
  /-- Requests without an answer, with their methods, in order. -/
  pending : List (Nat × Text) := []
  subscribed : Bool := false
  deriving Repr

/-- A link after an operation, and the events of the operation. -/
structure Linked where
  link : Link
  events : List LinkEvent := []

namespace Linked

def andThen (l : Linked) (f : Link -> Linked) : Linked :=
  let next := f l.link
  ⟨next.link, l.events ++ next.events⟩

end Linked

namespace Link

/-! ## Processes -/

def attach (l : Link) : Link :=
  { l with attached := true, broken := false, running := true, terminations := 0 }

def stop (l : Link) : Link :=
  { l with
    running := false
    attached := false
    terminations := if l.attached then l.terminations + 1 else l.terminations }

def failureMessage (method : Text) (error : Json) : Text :=
  let shown := match error with
    | .obj members => (Json.lookup "message" members).getD .null
    | other => other
  "TypeScript error in ".toList ++ method ++ ": ".toList ++ (Json.display shown).toList

def failPending (reason : String) (l : Link) : Linked :=
  let failed := l.pending.map fun (id, method) =>
    LinkEvent.resolved id (.error (failureMessage method (.str reason)))
  ⟨{ l with pending := [] }, failed⟩

/-! ## Sending -/

/-- Writes a message.  Without a process nothing happens; a broken pipe ends the link. -/
def send (message : Json) (l : Link) : Linked :=
  if !l.attached then ⟨l, []⟩
  else if l.broken then
    let failed := l.failPending "process died"
    ⟨failed.link.stop, .notice (.error "TypeScript server process died") :: failed.events⟩
  else ⟨l, [.sent message]⟩

def version : String × Json := ("jsonrpc", .str "2.0")

def notify (method : String) (params : Json) (l : Link) : Linked :=
  l.send (.obj [version, ("method", .str method), ("params", params)])

def request (method : Text) (params : Json) (l : Link) : Linked :=
  let id := l.lastId + 1
  let l := { l with lastId := id, pending := l.pending ++ [(id, method)] }
  l.send (.obj [version, ("id", .ofNat id), ("method", .ofText method), ("params", params)])

/-! ## Receiving -/

/-- How an answer ends a request; an error that counts as absent is no error. -/
def outcomeOf (method : Text) (members : List (String × Json)) : Outcome :=
  match Json.lookup "error" members with
  | some error => if error.isTruthy then .error (failureMessage method error) else .ok .null
  | none => .ok ((Json.lookup "result" members).getD .null)

def canBeId : Json -> Bool
  | .arr _ => false
  | .obj _ => false
  | _ => true

/-- Takes an answer; one that nobody waits for is dropped. -/
def takeAnswer (id : Json) (members : List (String × Json)) (l : Link) : Linked :=
  match l.pending.find? fun (n, _) => id.equalsInt n with
  | none => ⟨l, []⟩
  | some (n, method) =>
    ⟨{ l with pending := l.pending.filter fun (m, _) => m ≠ n },
      [.resolved n (outcomeOf method members)]⟩

def itemCount? : Json -> Option Nat
  | .arr items => some items.length
  | .obj members => some members.length
  | .str s => some s.length
  | _ => none

def answer (id : Json) (rest : String × Json) (l : Link) : Linked :=
  l.send (.obj [version, ("id", id), rest])

/-- The configuration that the engine asks for: nothing for each item. -/
def configuration? (params : Json) : Option Json :=
  let params := if params.isTruthy then params else .obj []
  match params with
  | .obj members =>
    (itemCount? ((Json.lookup "items" members).getD (.arr []))).map fun n =>
      .arr (List.replicate n .null)
  | _ => none

/-- Answers a request of the engine; none when its parameters make no sense. -/
def answerRequest? (id method params : Json) (l : Link) : Option Linked :=
  match method with
  | .str "workspace/configuration" =>
    (configuration? params).map fun result => l.answer id ("result", result)
  | .str "client/registerCapability" => some (l.answer id ("result", .null))
  | .str "window/workDoneProgress/create" => some (l.answer id ("result", .null))
  | _ =>
    let refusal := .obj [("code", .int (-32601)), ("message", .str "Method not found")]
    let answered := l.answer id ("error", refusal)
    some ⟨answered.link,
      .notice (.warning "Unhandled TypeScript server request") :: answered.events⟩

/-- Takes a message that expects no answer; none when it makes no sense. -/
def takeNotification? (method params : Option Json) (l : Link) : Option Linked :=
  match method with
  | some (.str "textDocument/publishDiagnostics") =>
    if l.subscribed then
      let params := params.getD .null
      some ⟨l, [.diagnostics (if params.isTruthy then params else .obj [])]⟩
    else some ⟨l, []⟩
  | some (.str "window/logMessage") =>
    match params.getD (.obj []) with
    | .obj _ => some ⟨l, []⟩
    | _ => none
  | _ => some ⟨l, []⟩

def takeMessage? (message : Json) (l : Link) : Option Linked :=
  match message with
  | .obj members =>
    match Json.lookup "id" members, Json.lookup "method" members with
    | some id, none => if canBeId id then some (l.takeAnswer id members) else none
    | some id, some method =>
      l.answerRequest? id method ((Json.lookup "params" members).getD .null)
    | none, method => l.takeNotification? method (Json.lookup "params" members)
  | _ => none

/--
The message that some bytes hold.  It is assumed that the engine stays within the limits of the
reader: integers of at most 4300 digits, values nested less deep than calls may be, and no half of
a pair of units encoded on its own, such as the bytes ED A0 80.
-/
def message? (body : Bytes) : Option Json :=
  (Encoding.decode? body).bind Json.parse?

def receive (body : Bytes) (l : Link) : Linked :=
  match (message? body).bind fun message => l.takeMessage? message with
  | some taken => taken
  | none => ⟨l, [.notice (.error "Failed to handle message")]⟩

/-- Sends a request that is answered at once; the reply holds the result or the error. -/
def ask (reply : List (String × Json)) (method : String) (params : Json) (l : Link) :
    Outcome × Linked :=
  let sent := l.request method.toList params
  let id := sent.link.lastId
  let response := Json.ofMembers (version :: ("id", .ofNat id) :: reply)
  let answered := sent.andThen fun link =>
    (link.takeMessage? response).getD ⟨link, [.notice (.error "Failed to handle message")]⟩
  let outcome := (LinkEvent.resolvedIn answered.events).find? fun (n, _) => n = id
  ((outcome.map Prod.snd).getD (.ok .null), answered)

def readFrom (l : Link) : Bytes -> Linked
  | [] => l.failPending "stdout closed"
  | b :: rest =>
    if !l.running then l.failPending "stdout closed"
    else
      let reading := Frame.read (b :: rest)
      let taken : Linked := match reading with
        | .noise _ => ⟨l, []⟩
        | .unusable _ => ⟨l, [.notice (.error "Error parsing TypeScript server message")]⟩
        | .message body _ => l.receive body
      let last := taken.link.readFrom (rest.drop (reading.length - 1))
      ⟨last.link, taken.events ++ last.events⟩
termination_by stream => stream.length
decreasing_by exact length_drop_lt_cons ..

def readAll (stream : Bytes) (l : Link) : Linked :=
  if l.attached then l.readFrom stream else ⟨l, []⟩

/-! ## Starting -/

inductive Spawn where
  | started
  | missing
  | denied
  deriving DecidableEq, Repr

/-- The command to start: the chosen one, or that of an executable that was found. -/
def startCommand? (executable : Option Text) (l : Link) : Option (List Text) :=
  (l.command.filter (!·.isEmpty)).or
    ((executable.filter (!·.isEmpty)).map Machine.commandOf)

def start (executable : Option Text) (spawn : Spawn) (l : Link) : Option (List Text) × Linked :=
  match l.startCommand? executable with
  | none =>
    (none, ⟨l, [.notice (.warning
      "typescript-language-server not found in PATH or node_modules.")]⟩)
  | some command =>
    match spawn with
    | .started => (some command, ⟨l.attach, []⟩)
    | .missing =>
      (none, ⟨l, [.notice (.warning
        "typescript-language-server not found. Template type checking disabled.")]⟩)
    | .denied => (none, ⟨l, [.notice (.error "Failed to start TypeScript server")]⟩)

end Link
end SfcServer
