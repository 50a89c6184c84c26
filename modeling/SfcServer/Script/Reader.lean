import SfcServer.Script.Lexical
import SfcServer.Script.Spot

/-!
# Readers

A reader starts at a place of a script and gives the readings it finds there: what was
read, and the place after it.  There can be none, and there can be several, because some
constructs show only later what they were; the preferred one comes first.  No reading
ends before it starts.

A place that a reading ends at is the place right after its last lexeme.  Blanks and
comments are skipped before a lexeme and never after one, because an automatic semicolon
depends on what stands right after the last lexeme.
-/

namespace SfcServer
namespace Script

structure Reading {source : Text} (s : Spot source) (α : Type) where
  value : α
  stop : Spot source
  start_le_stop : s.offset ≤ stop.offset

def Reader (source : Text) (α : Type) : Type :=
  (s : Spot source) -> List (Reading s α)

namespace Reader

variable {source : Text} {α β : Type}

/-! ## Combining readers -/

def goOn {s : Spot source} (first : Reading s α) (next : Reader source β) : List (Reading s β) :=
  (next first.stop).map fun second =>
    ⟨second.value, second.stop, Nat.le_trans first.start_le_stop second.start_le_stop⟩

instance : Monad (Reader source) where
  pure a := fun s => [⟨a, s, Nat.le_refl _⟩]
  bind read f := fun s => (read s).flatMap fun first => goOn first (f first.value)

def orElse (read : Reader source α) (other : Unit -> Reader source α) : Reader source α := fun s =>
  match read s with
  | [] => other () s
  | found => found

instance : Alternative (Reader source) where
  failure := fun _ => []
  orElse := orElse

def also (read other : Reader source α) : Reader source α := fun s =>
  read s ++ other s

def commit (read : Reader source α) : Reader source α := fun s =>
  (read s).take 1

def distinctEnds {s : Spot source} (found : List (Reading s α)) : List (Reading s α) :=
  found.foldl
    (fun kept next =>
      if kept.any fun r => r.stop.offset = next.stop.offset then kept else kept ++ [next])
    []

def distinct (read : Reader source α) : Reader source α := fun s =>
  distinctEnds (read s)

def possibly (read : Reader source α) : Reader source (List α) :=
  (do return [← read]) <|> pure []

def manyAlong (read : Reader source α) : Text -> Reader source (List α)
  | [] => pure []
  | _ :: budget => (do return (← read) :: (← manyAlong read budget)) <|> pure []

/-- As many readings in a row as there are; each is to take at least one character. -/
def many (read : Reader source α) : Reader source (List α) := fun s =>
  manyAlong read s.rest s

/-! ## Looking ahead -/

def here : Reader source (Spot source) := fun s =>
  [⟨s, s, Nat.le_refl _⟩]

def ahead : Reader source Text := fun s =>
  [⟨s.rest.drop (gapLength s.rest), s, Nat.le_refl _⟩]

def finds (read : Reader source α) : Reader source Bool := fun s =>
  [⟨!(read s).isEmpty, s, Nat.le_refl _⟩]

def sees (text : String) : Reader source Bool := do
  return text.toList.isPrefixOf (← ahead)

def nextWord : Reader source String := do
  let t ← ahead
  return String.ofList (t.take (wordLengthFrom .first t))

def endsHere (k : EndRule) : Reader source Bool := fun s =>
  [⟨(automaticEnd? k s.rest).isSome, s, Nat.le_refl _⟩]

/-! ## Lexemes -/

def take (n : Nat) : Reader source (Part source) := fun s =>
  [⟨.ofLength s n, s.drop n, s.offset_le_drop n⟩]

def gap : Reader source Unit := fun s =>
  [⟨(), s.drop (gapLength s.rest), s.offset_le_drop _⟩]

def blanks : Reader source Unit := fun s =>
  [⟨(), s.drop (s.rest.takeWhile isGap).length, s.offset_le_drop _⟩]

def adjacent (length? : Text -> Option Nat) : Reader source (Part source) := do
  match length? (← here).rest with
  | some n => take n
  | none => failure

def lexeme (length? : Text -> Option Nat) : Reader source (Part source) := do
  gap
  adjacent length?

def sign (text : String) : Reader source Unit := do
  let _ ← lexeme fun t => if text.toList.isPrefixOf t then some text.length else none

def equals : Reader source Unit := do
  let t ← ahead
  guard (!("==".toList.isPrefixOf t || "=>".toList.isPrefixOf t))
  sign "="

def word : Reader source (Part source) :=
  lexeme wordLength?

def keyword (text : String) : Reader source Unit := do
  let found ← word
  guard (String.ofList found.text = text)

def keywordOf (texts : List String) : Reader source Unit := do
  let found ← word
  guard (texts.contains (String.ofList found.text))

def privateName : Reader source (Part source) :=
  lexeme privateNameLength?

def automaticEnd (k : EndRule) : Reader source Unit := do
  match automaticEnd? k (← here).rest with
  | some n => let _ ← take n
  | none => failure

def semicolon (k : EndRule) : Reader source Unit :=
  automaticEnd k <|> sign ";"

def commaSeparated (item : Reader source α) : Reader source (List α) := do
  let first ← possibly item
  let others ← many do
    sign ","
    possibly item
  return first ++ others.flatten

/-! ## Extents -/

def withPart (read : Reader source α) : Reader source (α × Part source) := fun s =>
  let start := s.drop (gapLength s.rest)
  (read start).map fun r =>
    ⟨(r.value, ⟨start, r.stop, r.start_le_stop⟩), r.stop,
      Nat.le_trans (s.offset_le_drop _) r.start_le_stop⟩

def node (kind : String) (read : Reader source (List SyntaxNode)) : Reader source SyntaxNode := do
  let (children, part) ← withPart read
  return part.node kind children

def leaf (kind : String) (read : Reader source α) : Reader source SyntaxNode := do
  let (_, part) ← withPart read
  return part.leaf kind

/-- A sign or a keyword as a node. -/
def token (read : Reader source α) : Reader source SyntaxNode := do
  let (_, part) ← withPart read
  return part.token

end Reader
end Script
end SfcServer
