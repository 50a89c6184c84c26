import SfcServer.Text.Letter
import SfcServer.Text.Numeral

/-!
# Lexemes of a script

How many characters at the head of a text belong together: blanks and comments, words,
numbers, quoted texts, regular expressions and the literal parts of templates.  Whether
a slash divides or starts a regular expression is for the grammar to say; here only the
extent of each is measured.
-/

namespace SfcServer
namespace Script

/-! ## Character classes -/

def isGap (c : Char) : Bool :=
  let n := c.toNat
  (9 ≤ n && n ≤ 13) || n == 32 || n == 0xA0 || n == 0x1680 || (0x2000 ≤ n && n ≤ 0x200B) ||
    n == 0x2028 || n == 0x2029 || n == 0x202F || n == 0x205F || n == 0x2060 || n == 0x3000 ||
    n == 0xFEFF

def isBreakable (c : Char) : Bool :=
  let n := c.toNat
  (9 ≤ n && n ≤ 13) || n == 32 || n == 0x1680 || (0x2000 ≤ n && n ≤ 0x200A && n != 0x2007) ||
    n == 0x2028 || n == 0x2029 || n == 0x205F || n == 0x3000

def endsLineComment (c : Char) : Bool :=
  c == '\n' || c == '\r' || c.toNat == 0x2028 || c.toNat == 0x2029

def signCharacters : List Char :=
  [':', ';', '@', '#', '.', ',', '|', '^', '&', '<', '=', '>', '+', '-', '*', '/', '%', '?', '!',
    '~', '(', ')', '[', ']', '\x7b', '\x7d', Text.backtick, Text.doubleQuote, Text.singleQuote,
    Text.backslash]

def isWordChar (c : Char) : Bool :=
  !(isGap c || c.toNat < 32 || signCharacters.contains c)

def isWordStart (c : Char) : Bool :=
  isWordChar c && !Text.isAsciiDigit c

def isHexDigit (c : Char) : Bool :=
  Text.isAsciiDigit c || ('a' ≤ c && c ≤ 'f') || ('A' ≤ c && c ≤ 'F')

/-! ## Blanks and comments -/

inductive GapState where
  | blank
  | line
  | block
  deriving DecidableEq, Repr

def gapLengthFrom (blank lineEnd : Char -> Bool) : GapState -> Text -> Nat
  | _, [] => 0
  | .blank, '/' :: '/' :: rest => 2 + gapLengthFrom blank lineEnd .line rest
  | .blank, '/' :: '*' :: rest => 2 + gapLengthFrom blank lineEnd .block rest
  | .blank, c :: rest => if blank c then 1 + gapLengthFrom blank lineEnd .blank rest else 0
  | .line, c :: rest =>
    if lineEnd c then 1 + gapLengthFrom blank lineEnd .blank rest
    else 1 + gapLengthFrom blank lineEnd .line rest
  | .block, '*' :: '/' :: rest => 2 + gapLengthFrom blank lineEnd .blank rest
  | .block, _ :: rest => 1 + gapLengthFrom blank lineEnd .block rest

def gapLength (t : Text) : Nat :=
  gapLengthFrom isGap endsLineComment .blank t

def blockCommentLength : Text -> Nat
  | [] => 0
  | '*' :: '/' :: _ => 2
  | _ :: rest => 1 + blockCommentLength rest

def commentLength? : Text -> Option Nat
  | '/' :: '/' :: rest => some (2 + (rest.takeWhile fun c => !endsLineComment c).length)
  | '/' :: '*' :: rest => some (2 + blockCommentLength rest)
  | _ => none

def markupCommentLength? (t : Text) : Option Nat :=
  if "<!--".toList.isPrefixOf t || "-->".toList.isPrefixOf t then
    some (t.takeWhile (· != '\n')).length
  else none

def commentsAlong (passed : Nat) : Text -> Text -> List (Nat × Nat)
  | [], _ => []
  | _ :: budget, t =>
    let start := passed + (t.takeWhile isGap).length
    let t := t.dropWhile isGap
    match commentLength? t with
    | some length => (start, length) :: commentsAlong (start + length) budget (t.drop length)
    | none => []

def lastComment? (t : Text) : Option (Nat × Nat) :=
  (commentsAlong 0 t t).getLast?

/-! ## Automatic semicolons -/

structure EndRule where
  /-- An operator, so that brackets on the next line continue an operand. -/
  operator : Bool := false
  /-- A body in braces. -/
  body : Bool := false
  deriving DecidableEq, Repr

def startsWithWord (word : String) (t : Text) : Bool :=
  match Text.dropLead? word.toList t with
  | some rest => (rest.head?.map fun c => !Text.isLetter c).getD true
  | none => false

def opensLine (k : EndRule) (t : Text) : Bool :=
  match t with
  | [] => true
  | '\x7b' :: _ => !k.body
  | '(' :: _ => !k.operator
  | '[' :: _ => !k.operator
  | '+' :: rest => rest.head? == some '+'
  | '-' :: rest => rest.head? == some '-'
  | '!' :: rest => rest.head? != some '='
  | 'i' :: _ => !(startsWithWord "in" t || startsWithWord "instanceof" t)
  | c :: _ =>
    !([Text.backtick, ',', '.', ';', '*', '%', '>', '<', '=', '?', '^', '|', '&', '/', ':'].contains
      c)

def lineEnds (k : EndRule) (t : Text) : Bool :=
  opensLine k (t.drop (gapLengthFrom isBreakable (· == '\n') .blank t))

def braceEnds (k : EndRule) (t : Text) : Bool :=
  k.operator || (t.dropWhile isBreakable).head? != some ':'

/--
Where an automatic semicolon stands, after `seen` characters of which `taken` end with
the last comment: the number of characters up to its last comment, if there is one.
-/
def automaticEndFrom (k : EndRule) : GapState -> (taken seen : Nat) -> Text -> Option Nat
  | .blank, taken, _, [] => some taken
  | .blank, taken, _, '\n' :: rest => if lineEnds k rest then some taken else none
  | .blank, taken, _, '\x7d' :: rest => if braceEnds k rest then some taken else none
  | .blank, taken, seen, '/' :: '/' :: rest => automaticEndFrom k .line taken (seen + 2) rest
  | .blank, taken, seen, '/' :: '*' :: rest => automaticEndFrom k .block taken (seen + 2) rest
  | .blank, taken, seen, c :: rest =>
    if isBreakable c then automaticEndFrom k .blank taken (seen + 1) rest else none
  | .line, _, seen, [] => some seen
  | .line, taken, seen, c :: rest =>
    if c = '\n' then if lineEnds k rest then some seen else none
    else if endsLineComment c then automaticEndFrom k .blank seen (seen + 1) rest
    else automaticEndFrom k .line taken (seen + 1) rest
  | .block, _, _, [] => none
  | .block, _, seen, '*' :: '/' :: rest => automaticEndFrom k .blank (seen + 2) (seen + 2) rest
  | .block, taken, seen, _ :: rest => automaticEndFrom k .block taken (seen + 1) rest

/--
Where an automatic semicolon stands: how many characters of comments come before it, if
there is one.  It stands at the end, before a closing brace, and before a line feed that
starts something new.
-/
def automaticEnd? (k : EndRule) (t : Text) : Option Nat :=
  automaticEndFrom k .blank 0 0 t

/-! ## Words -/

inductive WordState where
  | first
  | inner
  /-- An escape in braces. -/
  | escape
  deriving DecidableEq, Repr

def wordLengthFrom : WordState -> Text -> Nat
  | .escape, '\x7d' :: rest => 1 + wordLengthFrom .inner rest
  | .escape, c :: rest => if isHexDigit c then 1 + wordLengthFrom .escape rest else 0
  | _, '\\' :: 'u' :: '\x7b' :: rest => 3 + wordLengthFrom .escape rest
  | _, '\\' :: 'u' :: a :: b :: c :: d :: rest =>
    if [a, b, c, d].all isHexDigit then 6 + wordLengthFrom .inner rest else 0
  | .first, c :: rest => if isWordStart c then 1 + wordLengthFrom .inner rest else 0
  | .inner, c :: rest => if isWordChar c then 1 + wordLengthFrom .inner rest else 0
  | _, [] => 0

def positive? (n : Nat) : Option Nat :=
  if n = 0 then none else some n

def wordLength? (t : Text) : Option Nat :=
  positive? (wordLengthFrom .first t)

def privateNameLength? : Text -> Option Nat
  | '#' :: rest => (wordLength? rest).map (1 + ·)
  | _ => none

/-! ## Numbers -/

def digitsLength (isDigit : Char -> Bool) : Text -> Nat
  | [] => 0
  | '_' :: c :: rest => if isDigit c then 2 + digitsLength isDigit rest else 0
  | c :: rest => if isDigit c then 1 + digitsLength isDigit rest else 0

def decimalsLength (t : Text) : Nat :=
  if (t.head?.map Text.isAsciiDigit).getD false then digitsLength Text.isAsciiDigit t else 0

def exponentLength : Text -> Nat
  | c :: rest =>
    if c = 'e' ∨ c = 'E' then
      let sign := if rest.head? = some '+' ∨ rest.head? = some '-' then 1 else 0
      let digits := decimalsLength (rest.drop sign)
      if digits = 0 then 0 else 1 + sign + digits
    else 0
  | [] => 0

def basedLength? (isDigit : Char -> Bool) (t : Text) : Option Nat :=
  let digits := digitsLength isDigit t
  if digits = 0 then none
  else some (2 + digits + if (t.drop digits).head? = some 'n' then 1 else 0)

def decimalLength (t : Text) : Nat :=
  let whole := decimalsLength t
  match t.drop whole with
  | 'n' :: _ => whole + 1
  | '.' :: rest =>
    let places := decimalsLength rest
    whole + 1 + places + exponentLength (rest.drop places)
  | rest => whole + exponentLength rest

def numberLength? : Text -> Option Nat
  | '0' :: 'x' :: rest => basedLength? isHexDigit rest
  | '0' :: 'X' :: rest => basedLength? isHexDigit rest
  | '0' :: 'b' :: rest => basedLength? Text.isAsciiDigit rest
  | '0' :: 'B' :: rest => basedLength? Text.isAsciiDigit rest
  | '0' :: 'o' :: rest => basedLength? Text.isAsciiDigit rest
  | '0' :: 'O' :: rest => basedLength? Text.isAsciiDigit rest
  | '.' :: rest =>
    let places := decimalsLength rest
    if places = 0 then none else some (1 + places + exponentLength (rest.drop places))
  | t => if decimalsLength t = 0 then none else some (decimalLength t)

/-! ## Quoted texts, regular expressions, templates -/

/-- How many characters of a quoted text follow its opening quote; it ends on its line. -/
def quotedLength? (quote : Char) : Text -> Option Nat
  | [] => none
  | '\\' :: '\r' :: '\n' :: rest => (quotedLength? quote rest).map (3 + ·)
  | '\\' :: _ :: rest => (quotedLength? quote rest).map (2 + ·)
  | c :: rest =>
    if c = quote then some 1
    else if c = '\n' ∨ c = '\r' then none
    else (quotedLength? quote rest).map (1 + ·)

def stringLength? : Text -> Option Nat
  | c :: rest =>
    if c = Text.singleQuote ∨ c = Text.doubleQuote then (quotedLength? c rest).map (1 + ·)
    else none
  | [] => none

def patternLength? (inClass : Bool) : Text -> Option Nat
  | [] => none
  | '\n' :: _ => none
  | '\\' :: '\n' :: _ => none
  | '\\' :: _ :: rest => (patternLength? inClass rest).map (2 + ·)
  | '[' :: rest => (patternLength? true rest).map (1 + ·)
  | ']' :: rest => (patternLength? false rest).map (1 + ·)
  | '/' :: rest =>
    if inClass then (patternLength? inClass rest).map (1 + ·)
    else some (1 + (rest.takeWhile Char.isLower).length)
  | _ :: rest => (patternLength? inClass rest).map (1 + ·)

def regexLength? : Text -> Option Nat
  | '/' :: '/' :: _ => none
  | '/' :: rest => (patternLength? false rest).map (1 + ·)
  | _ => none

def chunkLength : Text -> Nat
  | [] => 0
  | '\\' :: _ :: rest => 2 + chunkLength rest
  | '$' :: '\x7b' :: _ => 0
  | c :: rest => if c = Text.backtick then 0 else 1 + chunkLength rest

/-! ## Operators -/

def operators : List String :=
  [">>>=", "===", "!==", "**=", "<<=", ">>=", ">>>", "&&=", "||=", "??=", "==", "!=", "<=", ">=",
    "&&", "||", "??", "?.", "++", "--", "+=", "-=", "*=", "/=", "%=", "&=", "|=", "^=", "<<", ">>",
    "**", "=>", "+", "-", "*", "/", "%", "&", "|", "^", "<", ">", "=", "?", "!", ".", "[", "("]

def operatorAt? (t : Text) : Option String :=
  operators.find? fun op => op.toList.isPrefixOf t

/--
Whether the question mark at the head of a text asks for one of two operands.  It does
not when it marks something as optional.
-/
def asksForOperand : Text -> Bool
  | '?' :: '?' :: _ => false
  | '?' :: '.' :: rest => (rest.head?.map Text.isAsciiDigit).getD false
  | '?' :: rest =>
    match rest.dropWhile isBreakable with
    | ':' :: _ => false
    | ')' :: _ => false
    | ',' :: _ => false
    | _ => true
  | _ => false

end Script
end SfcServer
