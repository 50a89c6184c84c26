import SfcServer.Text.Letter

/-!
# Documentation comments

A documentation comment is shown as Markdown: the description first, then one
paragraph for each tag, with the tag in italics and the name of a parameter as code.
-/

namespace SfcServer
namespace Documentation

def dropTrail (trail t : Text) : Text :=
  match Text.dropLead? trail.reverse t.reverse with
  | some rest => rest.reverse
  | none => t

def body (comment : Text) : Text :=
  let t := Text.trim comment
  dropTrail "*/".toList ((Text.dropLead? "/**".toList t).getD t)

def dropOne (p : Char -> Bool) : Text -> Text
  | [] => []
  | c :: rest => if p c then rest else c :: rest

/-- A line without the star that leads it and the blank after the star. -/
def line (t : Text) : Text :=
  Text.trimRight (dropOne Text.isBlank (dropOne (· == '*') (Text.trimLeft t)))

/-! ## Tags -/

/-- A tag of a comment and the text on its line. -/
structure Tag where
  name : Text
  rest : Text
  deriving DecidableEq, Repr

def tag? : Text -> Option Tag
  | '@' :: rest =>
    let name := rest.takeWhile Text.isWordChar
    if name.isEmpty then none
    else some ⟨name, Text.trimLeft (rest.drop name.length)⟩
  | _ => none

def isParameterChar (c : Char) : Bool :=
  Text.isWordChar c || c == '$' || c == '.' || c == '[' || c == ']'

def afterType : Text -> Text
  | '\x7b' :: rest =>
    match rest.dropWhile (· != '\x7d') with
    | _ :: left => Text.trimLeft left
    | [] => '\x7b' :: rest
  | t => t

def parameter? (t : Text) : Option (Text × Text) :=
  let t := afterType t
  let name := t.takeWhile isParameterChar
  if name.isEmpty then none
  else
    let rest := Text.trimLeft (t.drop name.length)
    some (name, Text.trimLeft (dropOne (· == '-') rest))

def Tag.italics (tag : Tag) : Text :=
  "*@".toList ++ tag.name ++ ['*']

def Tag.paragraph (tag : Tag) : Text :=
  let described := if tag.name = "param".toList then parameter? tag.rest else none
  match described with
  | some (name, description) =>
    tag.italics ++ [' ', Text.backtick] ++ name ++ Text.backtick :: " -- ".toList ++ description
  | none => tag.italics ++ " -- ".toList ++ tag.rest

/-! ## Markdown -/

/-- The lines of the description and the paragraphs of the tags, the last ones first. -/
structure Outline where
  description : List Text := []
  tags : List Text := []

/-- Adds a line: a new tag, more text of the last tag, or a line of the description. -/
def Outline.add (o : Outline) (t : Text) : Outline :=
  match tag? t, o.tags with
  | some tag, tags => { o with tags := tag.paragraph :: tags }
  | none, last :: tags => { o with tags := (last ++ ' ' :: Text.trim t) :: tags }
  | none, [] => { o with description := t :: o.description }

def markdown (comment : Text) : Text :=
  let o := ((Text.proseLines (body comment)).map line).foldl Outline.add {}
  let description := Text.trim (Text.joinWith ['\n'] o.description.reverse)
  let tags := o.tags.reverse.flatMap fun tag => "\n\n".toList ++ tag
  Text.trim (description ++ tags)

def ofComment (comment : Text) : Text :=
  if ("/**".toList).isPrefixOf comment then markdown comment else []

end Documentation
end SfcServer
