import SfcServer.Text.Basic

/-!
# Paths

Paths of files with `/` between their segments.  Exactly two leading slashes are kept,
since they announce a host; any other number of them counts as one.
-/

namespace SfcServer
namespace Path

/-- The folder of a path: all before the last slash, without the slashes at its end. -/
def folder (p : Text) : Text :=
  let head := (p.reverse.dropWhile (· != '/')).reverse
  if head.all (· == '/') then head
  else (head.reverse.dropWhile (· == '/')).reverse

/-- A path seen from a folder; an absolute path is seen as it is. -/
def join (folder p : Text) : Text :=
  if p.head? = some '/' then p
  else if folder = [] ∨ folder.getLast? = some '/' then folder ++ p
  else folder ++ '/' :: p

def parent : Text := "..".toList

def addSegment (rooted : Bool) (done : List Text) (segment : Text) : List Text :=
  if segment = [] ∨ segment = ['.'] then done
  else if segment ≠ parent then segment :: done
  else
    match done with
    | [] => if rooted then [] else [segment]
    | last :: before => if last = parent then segment :: done else before

def leadingSlashes (p : Text) : Nat :=
  match (p.takeWhile (· == '/')).length with
  | 0 => 0
  | 2 => 2
  | _ => 1

/-- The path without empty and `.` segments, and with `..` carried out. -/
def normalize (p : Text) : Text :=
  let slashes := leadingSlashes p
  let segments := ((Text.splitWhere (· == '/') p).foldl (addSegment (slashes != 0)) []).reverse
  let result := List.replicate slashes '/' ++ Text.joinWith ['/'] segments
  if result = [] then ['.'] else result

end Path
end SfcServer
