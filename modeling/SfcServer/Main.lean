import SfcServer.Engine.Frame
import SfcServer.Json.Reader
import SfcServer.Server.Request

/-!
# The program

The server on standard input and output.  Messages arrive and leave as frames, and the
log goes to standard error and, if one is named, to a file.

A step of the server is a pure function of the files that it reads.  The program runs a
step with the files read so far, and once more when the step asked for another one.
No engine is started.
-/

namespace SfcServer
namespace Program

structure State where
  server : Server
  env : Environment
  log : Option IO.FS.Handle := none

/-! ## The outside -/

def readBytes? (path : Text) : IO (Option Bytes) := do
  try
    return some (← IO.FS.readBinFile (String.ofList path)).data.toList
  catch _ => return none

def readFile (uri : Text) : IO FileText := do
  let bytes ← match Uri.path? uri with
    | some path => readBytes? path
    | none => pure none
  return match readDocument (fun _ => bytes) uri with
    | .ok (some t) => .text t
    | .ok none => .missing
    | .error _ => .failed

def seconds : IO Double := do
  return Double.ofRatio false (← IO.monoMsNow) 1000

def send (message : Json) : IO Unit := do
  let out ← IO.getStdout
  out.write ⟨(Frame.encode message).toArray⟩
  out.flush

def rank : NoticeLevel -> Nat
  | .warning => 30
  | .error => 40

def tell (s : State) (n : Notice) : IO Unit := do
  if s.server.settings.level ≤ rank n.level then
    IO.eprintln (String.ofList n.text)
    match s.log with
    | some file => file.putStrLn (String.ofList n.text)
    | none => pure ()

def openLog (s : State) : IO State := do
  match s.server.settings.logFile with
  | none => return { s with log := none }
  | some name =>
    try
      return { s with log := some (← IO.FS.Handle.mk (String.ofList name) .append) }
    catch e =>
      IO.eprintln ("Cannot open log file " ++ String.ofList name ++ ": " ++ e.toString)
      return { s with log := none }

/-! ## Steps -/

/-- Runs a step, until it asks for no file that was not read for it. -/
partial def attempt (s : State) (m : Message) (now : Double) (known : Keyed FileText) :
    IO Stepped := do
  let conditions : Conditions := {
    files := fun uri => (known.get? uri).getD .missing
    now := some now
    env := s.env
    engineStarts := false }
  let stepped := s.server.step conditions m
  match stepped.trace.reads.find? fun uri => (known.get? uri).isNone with
  | none => return stepped
  | some uri => attempt s m now (known.put uri (← readFile uri))

def perform (s : State) (m : Message) (respond : Except Fault Json -> List Json) : IO State := do
  let stepped ← attempt s m (← seconds) []
  let after := { s with server := stepped.server }
  stepped.trace.notices.forM (tell after)
  (respond stepped.answer).forM send
  stepped.published.forM fun p => send (Call.notification p)
  return after

/-- Answers the body of a frame; the value says whether the editor asked to leave. -/
def answer (s : State) (body : Bytes) : IO (State × Bool) := do
  match ((Utf8.decode? body).bind Json.parse?).bind Call.ofJson? with
  | none => return (s, false)
  | some call =>
    match call.message? with
    | some m =>
      let after ← perform s m call.responses
      return (← if call.method = "initialize" then openLog after else pure after, false)
    | none =>
      (call.refusals).forM send
      return (s, call.method = "exit")

partial def skipHeader (input : IO.FS.Stream) : IO Unit := do
  let line ← input.getLine
  if !(Text.trim line.toList).isEmpty then skipHeader input

/-- Waits for the body of the next frame; there is none at the end of the input. -/
partial def nextBody (input : IO.FS.Stream) : IO (Option Bytes) := do
  let line ← input.getLine
  if line.isEmpty then return none
  match Frame.announced? (Utf8.encode line.toList) with
  | some (some length) =>
    skipHeader input
    return some (← input.read (USize.ofNat length.toNat)).data.toList
  | _ => nextBody input

/-- Waits until a body has arrived; timers of the server go on meanwhile. -/
partial def await (arrival : Task (Except IO.Error (Option Bytes))) (s : State) :
    IO (State × Option Bytes) := do
  if ← IO.hasFinished arrival then
    match arrival.get with
    | .ok body => return (s, body)
    | .error e => throw e
  else
    IO.sleep 10
    let waiting := !s.server.timers.isEmpty || !s.server.deferred.isEmpty
    await arrival (← if waiting then perform s .tick fun _ => [] else pure s)

partial def run (input : IO.FS.Stream) (s : State) : IO Unit := do
  let (s, body) ← await (← IO.asTask (nextBody input)) s
  match body with
  | none => return
  | some body =>
    let (s, leave) ← answer s body
    if !leave then run input s

end Program
end SfcServer

open SfcServer in
def main : IO Unit := do
  let env : Environment := {
    logLevel := (← IO.getEnv "VUE_CLASS_LS_LOG_LEVEL").map String.toList
    logFile := (← IO.getEnv "VUE_CLASS_LS_LOG_FILE").map String.toList }
  let s ← Program.openLog { server := Server.initial env, env := env }
  try
    Program.run (← IO.getStdin) s
  catch e =>
    Program.tell s Server.crashed
    throw e
