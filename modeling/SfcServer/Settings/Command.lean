import SfcServer.Text.Basic

/-!
# Command lines

Splits a command line into words.  Blanks separate words, quotes keep them together,
and a backslash keeps the next character.  Between double quotes a backslash only
keeps a quote or another backslash, and between single quotes it keeps nothing.
-/

namespace SfcServer
namespace Command

inductive SplitError where
  | openQuotation
  | openEscape
  deriving DecidableEq, Repr

def SplitError.message : SplitError -> Text
  | openQuotation => "No closing quotation".toList
  | openEscape => "No escaped character".toList

inductive Mode where
  | between
  | inWord
  | inQuotes (quote : Char)
  /-- After a backslash in a word, or between the given quotes. -/
  | escaped (quote : Option Char)
  deriving DecidableEq, Repr

def isSeparator (c : Char) : Bool :=
  c == ' ' || c == '\t' || c == '\r' || c == '\n'

def isQuote (c : Char) : Bool :=
  c == Text.singleQuote || c == Text.doubleQuote

/-- Words from some point on; `word` is the current one, its last character first. -/
def wordsFrom : Mode -> Text -> Text -> Except SplitError (List Text)
  | .between, _, [] => .ok []
  | .inWord, word, [] => .ok [word.reverse]
  | .inQuotes _, _, [] => .error .openQuotation
  | .escaped _, _, [] => .error .openEscape
  | .between, _, c :: rest =>
    if isSeparator c then wordsFrom .between [] rest
    else if c = Text.backslash then wordsFrom (.escaped none) [] rest
    else if isQuote c then wordsFrom (.inQuotes c) [] rest
    else wordsFrom .inWord [c] rest
  | .inWord, word, c :: rest =>
    if isSeparator c then (wordsFrom .between [] rest).map (word.reverse :: ·)
    else if isQuote c then wordsFrom (.inQuotes c) word rest
    else if c = Text.backslash then wordsFrom (.escaped none) word rest
    else wordsFrom .inWord (c :: word) rest
  | .inQuotes quote, word, c :: rest =>
    if c = quote then wordsFrom .inWord word rest
    else if c = Text.backslash ∧ quote = Text.doubleQuote then
      wordsFrom (.escaped (some quote)) word rest
    else wordsFrom (.inQuotes quote) (c :: word) rest
  | .escaped none, word, c :: rest => wordsFrom .inWord (c :: word) rest
  | .escaped (some quote), word, c :: rest =>
    let kept := if c = Text.backslash ∨ c = quote then word else Text.backslash :: word
    wordsFrom (.inQuotes quote) (c :: kept) rest

def words (t : Text) : Except SplitError (List Text) :=
  wordsFrom .between [] t

end Command
end SfcServer
