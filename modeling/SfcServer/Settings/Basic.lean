import SfcServer.Fault
import SfcServer.Json.Display
import SfcServer.Notice
import SfcServer.Number.Decimal
import SfcServer.Settings.Command

/-!
# Settings

What a client may choose when it starts the server.  A setting that is missing has a
default, and those of the log come from the environment if it has them.
-/

namespace SfcServer

structure Environment where
  logLevel : Option Text := none
  logFile : Option Text := none
  deriving DecidableEq, Repr

structure Settings where
  /-- The command that starts the engine; empty when it has to be found. -/
  command : List Text := []
  useEngine : Bool := true
  /-- How many seconds edits have to pause before a document is checked. -/
  delay : Double
  logLevel : Text
  logFile : Option Text
  deriving Repr

namespace Settings

def defaultDelay : Double :=
  Double.ofDecimal false 3 (-1)

def nonEmpty? (t : Text) : Option Text :=
  if t.isEmpty then none else some t

def ofEnvironment (env : Environment) : Settings where
  delay := defaultDelay
  logLevel := env.logLevel.getD "INFO".toList
  logFile := env.logFile.bind nonEmpty?

/-! ## Options -/

def command? : Json -> Except Fault (Option (List Text))
  | .str line =>
    match Command.words line.toList with
    | .ok words => .ok (some words)
    | .error e => .error (.command e)
  | .arr parts => .ok (some (parts.map fun part => (Json.display part).toList))
  | _ => .ok none

def seconds? : Json -> Except Fault (Option Double)
  | .real x => .ok (some x)
  | .int n =>
    match Double.ofInt? n with
    | some x => .ok (some x)
    | none => .error .tooLarge
  | .bool b => .ok (Double.ofInt? (if b then 1 else 0))
  | .str s => .ok (Double.ofText? s.toList)
  | _ => .ok none

def clampDelay (x : Double) : Double :=
  if x.blt .zero then .zero else x

/-- A setting of the log: a value that counts as absent is not used. -/
def shown? (value : Option Json) : Option Text :=
  value.bind fun v => if v.isTruthy then some (Json.display v).toList else none

def ofMembers (env : Environment) (members : List (String × Json)) :
    Except Fault (Settings × List Notice) := do
  let option (name : String) := Json.lookup name members
  let base := ofEnvironment env
  let command ← command? ((option "typescriptServerCommand").getD .null)
  let delay ← match option "diagnosticsDelay" with
    | none => .ok (some base.delay)
    | some .null => .ok (some base.delay)
    | some value => (seconds? value).map (·.map clampDelay)
  let notices := if delay.isNone then [Notice.warning "Ignoring invalid diagnosticsDelay"] else []
  return ({
    command := command.getD []
    useEngine := ((option "useTypeScript").map Json.isTruthy).getD true
    delay := delay.getD base.delay
    logLevel := (shown? (option "logLevel")).getD base.logLevel
    logFile := (shown? (option "logFile")).or base.logFile }, notices)

/-- Reads options of any shape: empty values count as no options, other non-objects are refused. -/
def ofOptions (env : Environment) (options : Json) : Except Fault (Settings × List Notice) :=
  match options with
  | .obj members => ofMembers env members
  | value => if value.isTruthy then .error .wrongShape else ofMembers env []

/-! ## Levels -/

/-- The capital of a letter of ASCII; the dotless i and the long s have theirs there too. -/
def capital (c : Char) : Char :=
  if c.toNat = 0x131 then 'I' else if c.toNat = 0x17F then 'S' else c.toUpper

def levels : List (String × Nat) :=
  [("CRITICAL", 50), ("FATAL", 50), ("ERROR", 40), ("WARN", 30), ("WARNING", 30), ("INFO", 20),
    ("DEBUG", 10), ("NOTSET", 0)]

/-- The number of the log level; a name that is none counts as `INFO`. -/
def level (s : Settings) : Nat :=
  ((levels.find? fun (name, _) => name.toList == s.logLevel.map capital).map Prod.snd).getD 20

end Settings

/-! ## The log -/

/-- A file named for the log, and whether it can be opened. -/
inductive LogFile where
  | none
  | opened
  | refused
  deriving DecidableEq, Repr

/-- Where the log goes.  Standard error is always used, since standard output is the protocol's. -/
structure LogSetup where
  level : Int
  toFile : Bool
  /-- Whether a file was named that could not be opened. -/
  complained : Bool
  deriving DecidableEq, Repr

def LogSetup.of (level : Int) (file : LogFile) : LogSetup :=
  ⟨level, file = .opened, file = .refused⟩

end SfcServer
