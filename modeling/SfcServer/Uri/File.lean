import SfcServer.Fault
import SfcServer.Uri.Path
import SfcServer.Uri.Percent

/-!
# File URIs

Documents are known by URI and components are imported by path.  A `file` URI has the
path of a file; a host, if there is one, stands before the path after two slashes.
-/

namespace SfcServer
namespace Uri

/-! ## Parts -/

/-- The parts of a URI that name a file. -/
structure Parts where
  scheme : Text
  host : Text
  path : Text
  deriving DecidableEq, Repr

def isSchemeChar (c : Char) : Bool :=
  c.isAlphanum || c == '+' || c == '-' || c == '.'

def splitScheme (uri : Text) : Text × Text :=
  let name := uri.takeWhile (· != ':')
  let starts := (name.head?.map Char.isAlpha).getD false
  if name.length < uri.length && starts && name.all isSchemeChar then
    (name.map Char.toLower, uri.drop (name.length + 1))
  else ([], uri)

def splitHost : Text -> Text × Text
  | '/' :: '/' :: rest =>
    rest.span fun c => !(c == '/' || c == '?' || c == '#')
  | rest => ([], rest)

/-- Drops control characters and spaces at the start, and tabs and line ends anywhere. -/
def clean (uri : Text) : Text :=
  (uri.dropWhile (·.toNat ≤ 32)).filter fun c => !(c == '\t' || c == '\r' || c == '\n')

def parts (uri : Text) : Parts :=
  let (scheme, rest) := splitScheme (clean uri)
  let (host, rest) := splitHost rest
  let path := (rest.takeWhile (· != '#')).takeWhile (· != '?')
  ⟨scheme, Percent.decode host, Percent.decode path⟩

/-! ## Paths of files -/

/-- Whether a path starts with a drive, such as `/C:`. -/
def startsWithDrive : Text -> Bool
  | '/' :: drive :: ':' :: _ => drive.isAlpha
  | _ => false

def path? (uri : Text) : Option Text :=
  let p := parts uri
  if p.scheme ≠ "file".toList then none
  else if p.host ≠ [] ∧ p.path ≠ [] then some ("//".toList ++ p.host ++ p.path)
  else if startsWithDrive p.path then
    some (((p.path.drop 1).take 1).map Char.toLower ++ p.path.drop 2)
  else some p.path

/-- The host and the path after it.  Two slashes announce a host, which a slash must end. -/
def splitPath (p : Text) : Except Fault (Text × Text) :=
  match p with
  | '/' :: '/' :: rest =>
    if rest.contains '/' then .ok (rest.span (· != '/')) else .error .outOfRange
  | _ => .ok ([], p)

def ofPath (p : Text) : Except Fault Text := do
  let (host, path) ← splitPath p
  let path := if path.head? = some '/' then path else '/' :: path
  let spelled :=
    if startsWithDrive path then (path.take 3).map Char.toLower ++ Percent.encode (path.drop 3)
    else Percent.encode path
  return "file://".toList ++ Percent.encode host ++ spelled

/--
The URI of a component imported under a specifier by the document `base`.  Only
absolute and relative paths are resolved; names of packages and aliases are not.
-/
def resolve (specifier base : Text) : Except Fault (Option Text) :=
  match specifier.head? with
  | some '/' => (ofPath specifier).map some
  | some '.' =>
    match path? base with
    | none => .ok none
    | some [] => .ok none
    | some p => (ofPath (Path.normalize (Path.join (Path.folder p) specifier))).map some
  | _ => .ok none

end Uri
end SfcServer
