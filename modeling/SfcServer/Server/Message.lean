import SfcServer.Script.Program
import SfcServer.Server.Validation

/-!
# Messages to the server

What an editor and the engine can tell the server, and how it answers.
-/

namespace SfcServer

variable [ScriptParser]

/-- Parameters of a request that is not part of the protocol's own. -/
structure CustomParams where
  value : Json
  /-- Whether the parameters have attributes instead of members. -/
  asAttributes : Bool := false
  deriving Repr

inductive Message where
  | start (options : Json) (rootUri : Option Text)
  | opened (uri text : Text) (version : Int)
  | changed (uri : Text) (texts : List Text) (version : Int)
  | closed (uri : Text)
  | filesChanged (uris : List Text)
  | hover (uri : Text) (place : Place)
  | complete (uri : Text) (place : Place) (context : Json)
  | definition (uri : Text) (place : Place)
  | highlights (uri : Text) (place : Place)
  | symbols (uri : Text)
  | virtualCode (params : CustomParams)
  | toProjected (params : CustomParams)
  | ofProjected (params : CustomParams)
  /-- A message that the engine sent. -/
  | fromEngine (message : Json)
  /-- Diagnostics of the engine that are handed over directly. -/
  | findings (fileName : Text) (findings : List Finding)
  /-- Nothing but the passing of time. -/
  | tick
  | shutdown

namespace CustomParams

def number (j : Json) : Except Fault Int :=
  match j.asInt? with
  | some n => .ok n
  | none => .error .outOfRange

def placeOf (missing : Fault) (j : Json) : Except Fault Place := do
  match j with
  | .obj members =>
    match Json.lookup "line" members, Json.lookup "character" members with
    | some line, some column => Place.check (← number line) (← number column)
    | _, _ => .error missing
  | _ => .error (if missing = .missingMember then .wrongKind else .wrongShape)

def place? (p : CustomParams) (position : Option Json) : Except Fault (Option Place) :=
  match position with
  | none => .ok none
  | some .null => .ok none
  | some j =>
    if p.asAttributes then (placeOf .wrongShape j).map some
    else if j.isTruthy then (placeOf .missingMember j).map some
    else .ok none

def read (p : CustomParams) : Except Fault (Json × Option Place) :=
  match p.value with
  | .obj members =>
    match Json.lookup "uri" members with
    | none => if p.asAttributes then .ok (.null, none) else do
        return (.null, ← p.place? (Json.lookup "position" members))
    | some uri => do return (uri, ← p.place? (Json.lookup "position" members))
  | _ => .ok (.null, none)

end CustomParams

namespace ServerAction

/-! ## Starting and stopping -/

def introduction (processId : Json) (rootUri : Option Text) : Json :=
  .obj [("processId", processId), ("rootPath", .null), ("rootUri", .ofOption .ofText rootUri),
    ("capabilities", .obj []), ("workspaceFolders", .null)]

def start (options : Json) (rootUri : Option Text) : ServerAction Unit := do
  let conditions ← read
  let members := match options with
    | .obj members => members
    | _ => []
  let (settings, notices) ← Settings.ofMembers conditions.env members
  notices.forM report
  change fun s => { s with settings := settings }
  if settings.useEngine then
    let command := if settings.command.isEmpty then none else some settings.command
    change fun s => { s with engines := s.engines ++ [⟨command, 0⟩] }
    if conditions.engineStarts then
      let session := Session.ofLink (some (Link.attach { command := command }))
      change fun s => { s with
        workspace := { s.workspace with session := some { session with subscribed := true } }
        current := s.engines.length - 1 }
      if conditions.now.isNone then throw .unavailable
      change fun s => { s with
        deferred := s.deferred ++ [.introduce (introduction conditions.processId rootUri)] }
    else
      report (.error "TypeScript server failed to start. Template type checking disabled.")

def shutdown : ServerAction Unit := do
  change fun s =>
    let cancelled := s.pending.map Prod.snd
    { s with pending := [], timers := s.timers.filter fun t => !cancelled.contains t.id }
  match ← session? with
  | none => return
  | some session =>
    change fun s => { s with
      workspace := { s.workspace with session := some session.stop }
      engines := s.engines.modify s.current fun e => { e with stops := e.stops + 1 } }

/-! ## Documents -/

def setStore (store : Store) : ServerAction Unit :=
  change fun s => { s with workspace := { s.workspace with store := store } }

def opened (uri text : Text) (version : Int) : ServerAction Unit := do
  if ("file://".toList).isPrefixOf uri then
    let store ← store
    let dependents := store.dependents uri
    setStore (store.openText uri text version)
    validate uri
    dependents.forM schedule

def changed (uri : Text) (texts : List Text) (version : Int) : ServerAction Unit := do
  let before ← store
  match texts.getLast? with
  | none => return
  | some text =>
    if (before.entryOf? uri).isSome then
      let (invalidated, after) := before.updateText uri text version
      setStore after
      for other in invalidated do
        if (((← store).entryOf? other).map (·.isOpen)).getD false then schedule other

def closed (uri : Text) : ServerAction Unit := do
  cancelTimer uri
  let store ← store
  let dependents := store.dependents uri
  setStore (store.close uri)
  change fun s => { s with findings := s.findings.erase uri }
  match ← session? with
  | none => pure ()
  | some session => ofService (Service.putSession (session.close (fileNameOf uri)))
  publish ⟨uri, [], none⟩
  dependents.forM schedule

def filesChanged (uris : List Text) : ServerAction Unit :=
  uris.forM fun uri => do
    let (dependents, after) := (← store).forget uri
    setStore after
    dependents.forM schedule

/-! ## Questions -/

/-- Asks the service about a known document; a failure is reported and has no answer. -/
def question (uri : Text) (failure : String) (absent : α) (action : Service α) :
    ServerAction α := do
  if ((← store).entryOf? uri).isSome then
    orReport (.error failure) absent (ofService action)
  else return absent

def knownUri? (uri : Json) : ServerAction (Option Text) := do
  if !uri.isTruthy then return none
  match uri with
  | .str s => return if ((← store).entryOf? s.toList).isSome then some s.toList else none
  | other => if other.isKey then return none else throw .wrongKind

def virtualCode (params : CustomParams) : ServerAction Json := do
  let (uri, _) ← params.read
  match ← knownUri? uri with
  | none => return .null
  | some uri =>
    match ← ofService (Service.projection? uri) with
    | none => return .null
    | some p =>
      return .obj [("uri", .ofText uri), ("fileName", .ofText p.fileName),
        ("version", .ofNat p.version), ("content", .ofText p.text)]

def carry (params : CustomParams) (f : Text -> Place -> Service (Option Place)) :
    ServerAction Json := do
  let (uri, place) ← params.read
  match place with
  | none => return .null
  | some place =>
    match ← knownUri? uri with
    | none => return .null
    | some uri => return .ofOption Place.toJson (← ofService (f uri place))

/-! ## The engine -/

/-- Takes a message of the engine; diagnostics in it are handed over when the step ends. -/
def fromEngine (message : Json) : ServerAction Unit := do
  match ← session? with
  | none => return
  | some session =>
    let step := session.onLink fun l =>
      (l.takeMessage? message).getD ⟨l, [.notice (.error "Failed to handle message")]⟩
    ofService (Service.putSession step)
    for params in LinkEvent.diagnosticsIn step.events do
      match session.findings params with
      | .error _ => report (.error "Diagnostics callback failed")
      | .ok none => pure ()
      | .ok (some (fileName, findings)) =>
        change fun s =>
          if s.listening then { s with deferred := s.deferred ++ [.publish fileName findings] }
          else s

/-! ## Steps -/

def handle : Message -> ServerAction Json
  | .start options rootUri => do start options rootUri; return .null
  | .opened uri text version => do opened uri text version; return .null
  | .changed uri texts version => do changed uri texts version; return .null
  | .closed uri => do closed uri; return .null
  | .filesChanged uris => do filesChanged uris; return .null
  | .hover uri place =>
    return .ofOption Hover.toJson (← question uri "Hover failed" none (Service.hover uri place))
  | .complete uri place context =>
    return CompletionItem.listToJson
      (← question uri "Completion failed" [] (Service.complete uri place context))
  | .definition uri place =>
    return .ofOption (fun found => .arr (found.map Location.toJson))
      (← question uri "Definition failed" none (Service.definition uri place))
  | .highlights uri place =>
    return .arr ((← question uri "Document highlight failed" []
      (Service.highlights uri place)).map Range.highlightToJson)
  | .symbols uri =>
    return .arr ((← question uri "Document symbols failed" []
      (Service.symbols uri)).map Symbol.toJson)
  | .virtualCode params => virtualCode params
  | .toProjected params => carry params Service.toProjected
  | .ofProjected params => carry params Service.ofProjected
  | .fromEngine message => do fromEngine message; return .null
  | .findings fileName findings => do publishFindings fileName findings; return .null
  | .tick => return .null
  | .shutdown => do shutdown; return .null

end ServerAction

/-- What a step gave: the answer, the server after it, and what was done. -/
structure Stepped where
  answer : Except Fault Json
  server : Server
  trace : Trace
  published : List Publication

def Server.step (conditions : Conditions) (message : Message) (s : Server) : Stepped :=
  let (answer, handled) := ((ServerAction.handle message).run conditions).run.run { server := s }
  let (_, settled) := (ServerAction.settle.run conditions).run.run handled
  ⟨answer, settled.server, settled.trace, settled.published⟩

def Server.crashed : Notice :=
  .error "Server crashed"

end SfcServer
