import SfcServer.Engine.Session
import SfcServer.Markup.Region
import SfcServer.Protocol.Value
import SfcServer.Store.Load

/-!
# The language service

Questions about documents are answered from the store and, for the script and for
expressions of the template, by the engine.  A question can change the store and the
session, since both keep what they have done; it also leaves a trace of the files it
read, the messages it sent, and what it reported.
-/

namespace SfcServer

variable [ScriptParser]

/-- The documents and the session that questions are asked of. -/
structure Workspace where
  store : Store := []
  session : Option Session := none

/-- What a question met: the files that can be read, and what the engine replies. -/
structure Surroundings where
  files : Files
  reply : List (String × Json) := []

structure Trace where
  reads : List Text := []
  sent : List Json := []
  notices : List Notice := []

/-- The workspace between two actions, and the trace of the actions so far. -/
structure ServiceState where
  workspace : Workspace := {}
  trace : Trace := {}

/-- An action of the service.  What it changed before it failed stays changed. -/
abbrev Service := ReaderT Surroundings (ExceptT Fault (StateM ServiceState))

namespace Service

/-! ## Primitive actions -/

def report (n : Notice) : Service Unit :=
  modify fun s => { s with trace := { s.trace with notices := s.trace.notices ++ [n] } }

def store : Service Store := do
  return (← get).workspace.store

def setStore (store : Store) : Service Unit :=
  modify fun s => { s with workspace := { s.workspace with store := store } }

def session? : Service (Option Session) := do
  return (← get).workspace.session

/-- Puts the session after an operation in place, and keeps what the operation sent. -/
def putSession (step : Sessioned) : Service Unit :=
  modify fun s =>
    { workspace := { s.workspace with session := some step.session }
      trace := { s.trace with
        sent := s.trace.sent ++ LinkEvent.sentIn step.events
        notices := s.trace.notices ++ LinkEvent.noticesIn step.events } }

def load (query : Store -> Loaded α) : Service α := do
  let found := query (← store)
  setStore found.store
  modify fun s => { s with trace := { s.trace with
    reads := s.trace.reads ++ found.reads
    notices := s.trace.notices ++ found.notices } }
  return found.value

def ask (absent : α) (question : List (String × Json) -> Session -> Except Fault α × Sessioned) :
    Service α := do
  match ← session? with
  | none => return absent
  | some session =>
    let (answer, step) := question (← read).reply session
    putSession step
    match answer with
    | .ok value => return value
    | .error f => throw f

/-- Runs an action; when it fails, reports that and gives a default. -/
def orReport (n : Notice) (default : α) (action : Service α) : Service α :=
  tryCatch action fun _ => do
    report n
    return default

/-! ## Documents -/

def entry? (uri : Text) : Service (Option Entry) := do
  return (← store).entryOf? uri

def markup? (uri : Text) : Service (Option Document) :=
  load fun s =>
    let (d, s) := s.markup? uri
    ⟨d, s, [], []⟩

def engineAvailable : Service Bool := do
  return ((← session?).map Session.available).getD false

/-- The projection of a document, which the engine is sent if it is there. -/
def projection? (uri : Text) : Service (Option Projection) := do
  let p ← load fun s => s.projection uri
  match p, ← session? with
  | some p, some session =>
    if session.available then putSession (session.sync p.fileName p.version p.text)
    return some p
  | p, _ => return p

/-- The components that a document registers; none when they cannot be loaded. -/
def registered (uri : Text) : Service (Keyed Component) := do
  let files := (← read).files
  orReport (.errorOf "Failed to load registered components of " uri "") [] do
    match ← load fun s => s.registered files uri with
    | .ok rows => return rows
    | .error f => throw f

/-- A position in a document: its entry, markup, offset and region. -/
structure Located where
  entry : Entry
  markup : Document
  offset : Nat
  region : Region

def locate (uri : Text) (place : Place) : Service (Option Located) := do
  match ← entry? uri, ← markup? uri with
  | some e, some d =>
    let offset := e.lines.offsetAt place
    return some ⟨e, d, offset, d.regionAt e.text offset⟩
  | _, _ => return none

def project? (p : Projection) (located : Located) : Option Int :=
  match located.region with
  | .expression => some (p.ofTemplate located.offset)
  | .script => p.ofScript? located.offset
  | _ => none

/-- The projection of a document and a projected offset, if the engine can be asked about it. -/
def engineTarget? (uri : Text) (located : Located) : Service (Option (Projection × Int)) := do
  match ← projection? uri with
  | none => return none
  | some p =>
    if ← engineAvailable then return (project? p located).map fun offset => (p, offset)
    else return none

end Service
end SfcServer
