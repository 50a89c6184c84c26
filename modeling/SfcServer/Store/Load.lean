import SfcServer.Component.Extract
import SfcServer.Notice
import SfcServer.Store.Basic

/-!
# Derived state of documents

Queries derive what they need from the texts in the store and keep it there.  Only the
component of a document that is not in the store is read from its file.
-/

namespace SfcServer

variable [ScriptParser]

inductive FileText where
  | missing
  | text (t : Text)
  | failed
  deriving DecidableEq, Repr

abbrev Files := Text -> FileText

/-- The text of a file: its bytes as UTF-8, with every line ended by a line feed. -/
def fileText (bytes : Bytes) : Except Fault Text :=
  match Utf8.decode? bytes with
  | some t => .ok (Text.normalizeReturns t)
  | none => .error .undecodable

/-- The text of the file that a URI names, among files given by path.  No path holds a zero. -/
def readDocument (bytesAt : Text -> Option Bytes) (uri : Text) : Except Fault (Option Text) :=
  match Uri.path? uri with
  | none => .ok none
  | some path =>
    if path.isEmpty then .ok none
    else if path.any (·.toNat = 0) then .error .outOfRange
    else
      match bytesAt path with
      | none => .ok none
      | some bytes => (fileText bytes).map some

/-- The result of a query, the store after it, the files it read, and what it reported. -/
structure Loaded (α : Type) where
  value : α
  store : Store
  reads : List Text := []
  notices : List Notice := []

namespace Store

def markup? (s : Store) (uri : Text) : Option Document × Store :=
  match s.entryOf? uri with
  | none => (none, s)
  | some e =>
    match e.derived.markup with
    | some d => (some d, s)
    | none =>
      let d := Document.ofText e.text
      (some d, Keyed.put uri { e with derived := { e.derived with markup := some d } } s)

def scriptText? (d : Document) (text : Text) : Option Text := do
  let script ← d.script?
  guard script.startTagEnd.isSome
  return text.slice script.contentStart script.contentStop

/-- The component of a document in the store; a script that cannot be read declares none. -/
def ownComponent (s : Store) (uri : Text) (e : Entry) : Loaded (Option Component) :=
  match e.derived.component with
  | some c => ⟨c, s, [], []⟩
  | none =>
    let d := e.derived.markup.getD (Document.ofText e.text)
    let keep (c : Option Component) : Store :=
      Keyed.put uri { e with derived :=
        { e.derived with markup := some d, component := some c } } s
    match (scriptText? d e.text).map (Component.ofScript · uri) with
    | none => ⟨none, keep none, [], []⟩
    | some (.ok c) => ⟨c, keep c, [], []⟩
    | some (.error _) =>
      ⟨none, keep none, [], [.errorOf "Failed to parse component " uri ""]⟩

/-- The component of a document, read from its file if it is not in the store. -/
def component (files : Files) (s : Store) (uri : Text) :
    Loaded (Except Fault (Option Component)) :=
  match s.entryOf? uri with
  | some e =>
    let own := s.ownComponent uri e
    { own with value := .ok own.value }
  | none =>
    match files uri with
    | .missing => ⟨.ok none, s, [uri], []⟩
    | .failed => ⟨.error .unavailable, s, [uri], []⟩
    | .text t =>
      let e : Entry := { text := t, isOpen := false }
      let own := ownComponent (Keyed.put uri e s) uri e
      ⟨.ok own.value, own.store, [uri], own.notices⟩

def addRegistered (files : Files) (found : Loaded (Except Fault (Keyed Component)))
    (r : Registration) : Loaded (Except Fault (Keyed Component)) :=
  match found.value with
  | .error _ => found
  | .ok rows =>
    let place := r.uri.filter (!·.isEmpty)
    let unread := Component.unread (place.getD r.specifier) r.name
    match place with
    | none => { found with value := .ok (Keyed.put r.name unread rows) }
    | some uri =>
      let one := component files found.store uri
      ⟨one.value.map fun c => Keyed.put r.name (c.getD unread) rows, one.store,
        found.reads ++ one.reads, found.notices ++ one.notices⟩

def registered (files : Files) (s : Store) (uri : Text) :
    Loaded (Except Fault (Keyed Component)) :=
  let own := component files s uri
  match own.value with
  | .error f => { own with value := .error f }
  | .ok none => { own with value := .ok [] }
  | .ok (some c) => c.registered.foldl (addRegistered files) { own with value := .ok [] }

/-- The projection of a document in the store, built if it is not there.  The document is in the
store when its component is asked for, so that it does not matter which files there are. -/
def projection (s : Store) (uri : Text) (files : Files := fun _ => .missing) :
    Loaded (Option Projection) :=
  match s.entryOf? uri with
  | none => ⟨none, s, [], []⟩
  | some e =>
    match e.derived.projection with
    | some p => ⟨p, s, [], []⟩
    | none =>
      let d := e.derived.markup.getD (Document.ofText e.text)
      let own := component files s uri
      match own.value with
      | .ok c =>
        let generation := e.generation + 1
        let p := Projection.build? uri e.text d c generation
        let derived : Derived := ⟨some d, some c, some p⟩
        ⟨p, Keyed.put uri { e with derived := derived, generation := generation } own.store,
          own.reads, own.notices⟩
      | .error _ =>
        let derived : Derived := { e.derived with markup := some d, projection := some none }
        ⟨none, Keyed.put uri { e with derived := derived } own.store, own.reads,
          own.notices ++ [.errorOf "Failed to build virtual document for " uri ""]⟩

end Store
end SfcServer
