import SfcServer.Protocol.Encode
import SfcServer.Service.Query
import SfcServer.Settings.Basic

/-!
# The server

The server keeps the settings of its client, the workspace that questions are asked of,
the diagnostics that the engine sent, and the timers of documents that wait to be
checked.

Time is given to each step from outside.  A server without a clock has no timers and
checks documents at once.
-/

namespace SfcServer

variable [ScriptParser]

/-- A check of a document that is due at some time. -/
structure Timer where
  id : Nat
  uri : Text
  due : Double
  deriving DecidableEq, Repr

/-- Something that is left to do when a step ends. -/
inductive Deferred where
  /-- Introduce the server to the engine. -/
  | introduce (params : Json)
  /-- Publish what the engine found in a file. -/
  | publish (fileName : Text) (findings : List Finding)

/-- An engine that was created: its command, and how often it was told to stop. -/
structure EngineRecord where
  command : Option (List Text)
  stops : Nat := 0
  deriving DecidableEq, Repr

/-- What the server keeps from one message to the next. -/
structure Server where
  settings : Settings
  workspace : Workspace := {}
  /-- The diagnostics of the engine, by document. -/
  findings : Keyed (List Diagnostic) := []
  /-- The timer that a document waits for. -/
  pending : Keyed Nat := []
  /-- The timers that will fire, in the order in which they were set. -/
  timers : List Timer := []
  lastTimer : Nat := 0
  deferred : List Deferred := []
  /-- Whether diagnostics that arrive can be handed over to the clock's thread. -/
  listening : Bool := false
  engines : List EngineRecord := []
  /-- Which of the engines is in use. -/
  current : Nat := 0

def Server.initial (env : Environment) : Server :=
  { settings := .ofEnvironment env }

/-- What a step meets: files, the reply of the engine, the time if there is a clock. -/
structure Conditions where
  files : Files
  reply : List (String × Json) := []
  now : Option Double := none
  env : Environment := {}
  /-- Whether an engine can be started. -/
  engineStarts : Bool := true
  processId : Json := .null

/-- A server in the middle of a step, with what the step has done so far. -/
structure ServerState where
  server : Server
  trace : Trace := {}
  published : List Publication := []

/-- An action of the server.  What it changed before it failed stays changed. -/
abbrev ServerAction := ReaderT Conditions (ExceptT Fault (StateM ServerState))

namespace ServerAction

def server : ServerAction Server := do
  return (← get).server

def change (f : Server -> Server) : ServerAction Unit :=
  modify fun s => { s with server := f s.server }

def report (n : Notice) : ServerAction Unit :=
  modify fun s => { s with trace := { s.trace with notices := s.trace.notices ++ [n] } }

def publish (p : Publication) : ServerAction Unit :=
  modify fun s => { s with published := s.published ++ [p] }

def ofService (action : Service α) : ServerAction α := do
  let conditions ← read
  let s ← get
  let (result, after) := (action.run ⟨conditions.files, conditions.reply⟩).run.run
    ⟨s.server.workspace, s.trace⟩
  set { s with server := { s.server with workspace := after.workspace }, trace := after.trace }
  match result with
  | .ok value => return value
  | .error f => throw f

/-- Runs an action; when it fails, reports that and gives a default. -/
def orReport (n : Notice) (default : α) (action : ServerAction α) : ServerAction α :=
  tryCatch action fun _ => do
    report n
    return default

def store : ServerAction Store := do
  return (← server).workspace.store

def session? : ServerAction (Option Session) := do
  return (← server).workspace.session

end ServerAction
end SfcServer
