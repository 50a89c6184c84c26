import SfcServer.Text.Letter
import SfcServer.Text.LowerCase

/-!
# Markup tokens

Scanning cuts a stretch of markup into tokens.  It knows as much of the markup as
the outline and the template need: tags, attributes, content, comments, and the raw
bodies of scripts and styles.  Every step takes the first character of what is left
and some number of further ones, so the tokens tile the stretch.
-/

namespace SfcServer

/-- The kinds of tokens that markup is cut into. -/
inductive TokenKind where
  | startTagOpen
  | startTag
  | startTagClose
  | startTagSelfClose
  | endTagOpen
  | endTag
  | endTagClose
  | attributeName
  | delimiterAssign
  | attributeValue
  | content
  | comment
  | rawContent
  | whitespace
  | unknown
  deriving DecidableEq, Repr

def TokenKind.label : TokenKind -> String
  | .startTagOpen => "startTagOpen"
  | .startTag => "startTag"
  | .startTagClose => "startTagClose"
  | .startTagSelfClose => "startTagSelfClose"
  | .endTagOpen => "endTagOpen"
  | .endTag => "endTag"
  | .endTagClose => "endTagClose"
  | .attributeName => "attributeName"
  | .delimiterAssign => "delimiterAssign"
  | .attributeValue => "attributeValue"
  | .content => "content"
  | .comment => "comment"
  | .rawContent => "rawContent"
  | .whitespace => "whitespace"
  | .unknown => "unknown"

/-- A token and the offset of its first character in the whole text. -/
structure Token where
  kind : TokenKind
  text : Text
  offset : Nat
  deriving DecidableEq, Repr

def Token.stop (t : Token) : Nat :=
  t.offset + t.text.length

/-! ## Raw elements -/

inductive RawElement where
  | script
  | style
  deriving DecidableEq, Repr

namespace RawElement

def name : RawElement -> Text
  | .script => "script".toList
  | .style => "style".toList

def ofTag? (tag : Text) : Option RawElement :=
  let name := Text.lower tag
  if name = RawElement.script.name then some .script
  else if name = RawElement.style.name then some .style
  else none

end RawElement

/--
Whether a character is a lower case letter of ASCII up to case; the long s counts
as an s, and the dotted capital and dotless small i count as an i.
-/
def foldsTo (letter c : Char) : Bool :=
  c.toLower == letter || (letter == 's' && c.toNat == 0x17F) ||
    (letter == 'i' && (c.toNat == 0x130 || c.toNat == 0x131))

def dropFolded? : Text -> Text -> Option Text
  | [], t => some t
  | letter :: name, c :: t => if foldsTo letter c then dropFolded? name t else none
  | _ :: _, [] => none

/-- Whether a text starts with the end tag of a raw element, up to a word boundary. -/
def RawElement.closesAt (e : RawElement) : Text -> Bool
  | '<' :: '/' :: t =>
    match dropFolded? e.name t with
    | some [] => true
    | some (c :: _) => !Text.isWordChar c
    | none => false
  | _ => false

def RawElement.bodyLength (e : RawElement) : Text -> Nat
  | [] => 0
  | c :: rest => if e.closesAt (c :: rest) then 0 else 1 + e.bodyLength rest

/-! ## Character classes -/

def isTagNameChar (c : Char) : Bool :=
  !(Text.isBlank c || c == Text.doubleQuote || c == Text.singleQuote || c == Text.backtick ||
    c == '=' || c == '<' || c == '>' || c == '/')

def isAttributeNameChar (c : Char) : Bool :=
  !(Text.isBlank c || c == Text.doubleQuote || c == Text.singleQuote || c == '>' || c == '/' ||
    c == '=')

def isUnquotedValueChar (c : Char) : Bool :=
  !(Text.isBlank c || c == Text.doubleQuote || c == Text.singleQuote || c == Text.backtick ||
    c == '=' || c == '<' || c == '>')

/-- The number of characters at the head of a text that belong to a class. -/
def runLength (p : Char -> Bool) (t : Text) : Nat :=
  (t.takeWhile p).length

/-! ## Content -/

/-- Characters up to and with the braces that close an interpolation, before others open. -/
def closingLength? : Text -> Option Nat
  | '\x7d' :: '\x7d' :: _ => some 2
  | '\x7b' :: '\x7b' :: _ => none
  | _ :: rest => (closingLength? rest).map (· + 1)
  | [] => none

/-- How many characters follow the first one of the interpolation that a text starts with. -/
def interpolationExtra : Text -> Nat
  | '\x7b' :: '\x7b' :: rest =>
    match closingLength? rest with
    | some n => n + 1
    | none => 0
  | _ => 0

/--
The length of content: everything up to the next `<` that stands outside of
interpolations.  The first `inside` characters belong to one.
-/
def contentLength : Nat -> Text -> Nat
  | _, [] => 0
  | inside + 1, _ :: rest => 1 + contentLength inside rest
  | 0, c :: rest => if c = '<' then 0 else 1 + contentLength (interpolationExtra (c :: rest)) rest

def commentLength (t : Text) : Nat :=
  match Text.indexOf? "-->".toList t with
  | some i => i + 3
  | none => t.length

def declarationLength (t : Text) : Nat :=
  let body := runLength (· != '>') t
  if body < t.length then body + 1 else body

def quotedLength (quote : Char) (t : Text) : Nat :=
  let body := runLength (· != quote) t
  if body < t.length then body + 1 else body

/-! ## Scanning -/

/-- What the scanner stands in; inside a tag it remembers whether a raw body follows. -/
inductive ScanMode where
  | content
  | afterOpen
  | inTag (body : Option RawElement)
  | afterName (body : Option RawElement)
  | beforeValue (body : Option RawElement)
  | inEndTag
  | rawBody (element : RawElement)
  deriving DecidableEq, Repr

/-- One token: its kind, how many characters follow its first one, and what comes next. -/
structure ScanStep where
  kind : TokenKind
  extra : Nat
  mode : ScanMode
  deriving DecidableEq, Repr

namespace ScanStep

def content (c : Char) (rest : Text) : ScanStep :=
  let text : ScanStep :=
    ⟨.content, contentLength (interpolationExtra (c :: rest)) rest, .content⟩
  if c = '<' then
    match rest with
    | '!' :: '-' :: '-' :: body => ⟨.comment, 3 + commentLength body, .content⟩
    | '!' :: body => ⟨.comment, 1 + declarationLength body, .content⟩
    | '/' :: _ => ⟨.endTagOpen, 1, .inEndTag⟩
    | d :: _ => if Text.isLetter d then ⟨.startTagOpen, 0, .afterOpen⟩ else text
    | [] => text
  else text

/-- Between the parts of a start tag.  A `<` ends an unfinished tag. -/
def inTag (body : Option RawElement) (c : Char) (rest : Text) : ScanStep :=
  if Text.isBlank c then ⟨.whitespace, runLength Text.isBlank rest, .inTag body⟩
  else if c = '/' ∧ rest.head? = some '>' then ⟨.startTagSelfClose, 1, .content⟩
  else if c = '>' then
    ⟨.startTagClose, 0, match body with
      | some element => .rawBody element
      | none => .content⟩
  else if c = '<' then content c rest
  else if isAttributeNameChar c then
    ⟨.attributeName, runLength isAttributeNameChar rest, .afterName body⟩
  else ⟨.unknown, 0, .inTag body⟩

def afterOpen (c : Char) (rest : Text) : ScanStep :=
  if isTagNameChar c then
    let more := runLength isTagNameChar rest
    ⟨.startTag, more, .inTag (RawElement.ofTag? (c :: rest.take more))⟩
  else inTag none c rest

def afterName (body : Option RawElement) (c : Char) (rest : Text) : ScanStep :=
  if Text.isBlank c then ⟨.whitespace, runLength Text.isBlank rest, .afterName body⟩
  else if c = '=' then ⟨.delimiterAssign, 0, .beforeValue body⟩
  else inTag body c rest

def beforeValue (body : Option RawElement) (c : Char) (rest : Text) : ScanStep :=
  if Text.isBlank c then ⟨.whitespace, runLength Text.isBlank rest, .beforeValue body⟩
  else if c = Text.doubleQuote ∨ c = Text.singleQuote then
    ⟨.attributeValue, quotedLength c rest, .inTag body⟩
  else if isUnquotedValueChar c then
    ⟨.attributeValue, runLength isUnquotedValueChar rest, .inTag body⟩
  else inTag body c rest

def inEndTag (c : Char) (rest : Text) : ScanStep :=
  if Text.isBlank c then ⟨.whitespace, runLength Text.isBlank rest, .inEndTag⟩
  else if isTagNameChar c then ⟨.endTag, runLength isTagNameChar rest, .inEndTag⟩
  else if c = '>' then ⟨.endTagClose, 0, .content⟩
  else if c = '<' then content c rest
  else ⟨.unknown, 0, .inEndTag⟩

def rawBody (element : RawElement) (c : Char) (rest : Text) : ScanStep :=
  if element.closesAt (c :: rest) then content c rest
  else ⟨.rawContent, element.bodyLength rest, .content⟩

/-- The next token of a text that starts with `c`. -/
def next : ScanMode -> Char -> Text -> ScanStep
  | .content => content
  | .afterOpen => afterOpen
  | .inTag body => inTag body
  | .afterName body => afterName body
  | .beforeValue body => beforeValue body
  | .inEndTag => inEndTag
  | .rawBody element => rawBody element

end ScanStep

/-- The tokens of a text whose first character stands at `offset`. -/
def scanFrom (mode : ScanMode) (offset : Nat) : Text -> List Token
  | [] => []
  | c :: rest =>
    let step := ScanStep.next mode c rest
    ⟨step.kind, c :: rest.take step.extra, offset⟩ ::
      scanFrom step.mode (offset + 1 + step.extra) (rest.drop step.extra)
termination_by t => t.length
decreasing_by exact length_drop_lt_cons ..

/-- The tokens of a text between two offsets, scanned as if it were a text of its own. -/
def scan (t : Text) (start stop : Nat) : List Token :=
  scanFrom .content start (t.slice start stop)

end SfcServer
