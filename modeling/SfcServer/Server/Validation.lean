import SfcServer.Server.Basic

/-!
# Validation

A document is checked when it is opened, and after a pause when it or a component that
it registers has changed.  Checking sends its projection to the engine, and publishes
what is wrong with its template together with what the engine found last.
-/

namespace SfcServer

variable [ScriptParser]
namespace ServerAction

def publishDiagnostics (uri : Text) : ServerAction Unit := do
  match (← store).entryOf? uri with
  | none => return
  | some entry =>
    if entry.isOpen then
      let own ← ofService (Service.templateDiagnostics uri)
      let found := ((← server).findings.get? uri).getD []
      publish ⟨uri, own ++ found, some entry.version⟩

def validate (uri : Text) : ServerAction Unit := do
  change fun s => { s with pending := s.pending.erase uri }
  orReport (.errorOf "Failed to sync " uri " with TypeScript server") ()
    (discard (ofService (Service.projection? uri)))
  publishDiagnostics uri

def cancelTimer (uri : Text) : ServerAction Unit :=
  change fun s =>
    match s.pending.get? uri with
    | none => s
    | some id =>
      { s with pending := s.pending.erase uri, timers := s.timers.filter (·.id ≠ id) }

/-- Checks a document once changes have paused, or at once without a clock or a delay. -/
def schedule (uri : Text) : ServerAction Unit := do
  cancelTimer uri
  let delay := (← server).settings.delay
  match (← read).now with
  | none => validate uri
  | some now =>
    if delay.ble .zero then validate uri
    else
      change fun s =>
        let id := s.lastTimer + 1
        { s with
          lastTimer := id
          pending := s.pending.put uri id
          timers := s.timers ++ [⟨id, uri, now.add delay⟩] }

def publishFindings (fileName : Text) (findings : List Finding) : ServerAction Unit := do
  let uri := documentOf fileName
  if ((← store).entryOf? uri).isSome then
    let mapped ← orReport (.errorOf "Failed to map diagnostics for " uri "") none
      (some <$> ofService (Service.mapFindings uri findings))
    match mapped with
    | none => return
    | some diagnostics =>
      change fun s => { s with findings := s.findings.put uri diagnostics }
      publishDiagnostics uri

/-! ## The end of a step -/

/-- Introduces the server to the engine, and checks the documents that were opened before. -/
def introduce (params : Json) : ServerAction Unit := do
  change fun s => { s with listening := true }
  match ← session? with
  | none => return
  | some _ =>
    let begun ← orReport (.error "Failed to initialize TypeScript server") false do
      let _ ← ofService (Service.ask .null fun reply => Session.introduce reply params)
      return true
    if begun then
      for uri in (← store).openUris do
        validate uri

def runDeferred : Deferred -> ServerAction Unit
  | .introduce params => introduce params
  | .publish fileName findings => publishFindings fileName findings

def insertByDue (t : Timer) : List Timer -> List Timer
  | [] => [t]
  | other :: rest => if t.due.blt other.due then t :: other :: rest else other :: insertByDue t rest

def dueTimers (now : Double) (timers : List Timer) : List Timer :=
  (timers.filter (·.due.ble now)).foldl (fun sorted t => insertByDue t sorted) []

def fire (t : Timer) : ServerAction Unit := do
  change fun s => { s with timers := s.timers.filter (·.id ≠ t.id) }
  validate t.uri

/-- Does what is left to do when a step ends: what was deferred first, then timers that are due. -/
def settle : ServerAction Unit := do
  match (← read).now with
  | none => return
  | some now =>
    let deferred := (← server).deferred
    change fun s => { s with deferred := [] }
    deferred.forM runDeferred
    (dueTimers now (← server).timers).forM fire

end ServerAction
end SfcServer
