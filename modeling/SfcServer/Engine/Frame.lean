import SfcServer.Json.Writer
import SfcServer.Text.Numeral
import SfcServer.Text.Utf8

/-!
# Frames

Messages travel over a pipe of bytes.  Each is announced by a line with the number of
its bytes and an empty line.  A reader skips lines that announce nothing.
-/

namespace SfcServer
namespace Frame

def announcement : Text := "Content-Length:".toList

def body (message : Json) : Bytes :=
  Utf8.encode message.write

def header (message : Json) : Text :=
  announcement ++ ' ' :: Text.ofNat (body message).length

def encode (message : Json) : Bytes :=
  Utf8.encode (header message ++ "\r\n\r\n".toList) ++ body message

/-! ## Reading -/

def lineFeed : UInt8 := 10

/-- How many bytes the first line has, its line feed included. -/
def lineLength : Bytes -> Nat
  | [] => 0
  | b :: rest => if b = lineFeed then 1 else 1 + lineLength rest

/-- The length that a line announces, if it announces one; the length may be no number. -/
def announced? (line : Bytes) : Option (Option Int) :=
  let text := Text.trim (Utf8.decodeSkipping line)
  (Text.dropLead? announcement text).map fun rest =>
    Text.integer? (rest.takeWhile (· != ':'))

/-- The numbers that can be a length in memory: those below `2 ^ 63` in size. -/
def isIndex (n : Int) : Bool :=
  -9223372036854775808 ≤ n && n < 9223372036854775808

/-- What stands at the head of a stream, and how many bytes it takes. -/
inductive Reading where
  | noise (length : Nat)
  /-- An announcement without a usable length. -/
  | unusable (length : Nat)
  | message (body : Bytes) (length : Nat)
  deriving DecidableEq, Repr

/--
Reads a line, and the message that it announces.  A negative length announces all that
is left.
-/
def read (stream : Bytes) : Reading :=
  let line := lineLength stream
  match announced? (stream.take line) with
  | none => .noise line
  | some none => .unusable line
  | some (some n) =>
    let head := line + lineLength (stream.drop line)
    let left := stream.drop head
    if !isIndex n then .unusable head
    else if n < 0 then .message left stream.length
    else .message (left.take n.toNat) (head + n.toNat)

def Reading.length : Reading -> Nat
  | noise n => n
  | unusable n => n
  | message _ n => n

end Frame
end SfcServer
