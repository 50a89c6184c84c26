import SfcServer.Settings.Command

/-!
# Faults

What can be wrong with a value that came from outside, or with the request it came in.
-/

namespace SfcServer

inductive Fault where
  /-- A value is not of the shape whose parts are asked for. -/
  | wrongShape
  /-- A value is of a kind that the operation does not take. -/
  | wrongKind
  /-- An object lacks a member that is needed. -/
  | missingMember
  /-- A value lies outside the range allowed for it. -/
  | outOfRange
  /-- A nested value lacks parts or has wrong ones. -/
  | badStructure
  /-- A number is too large for its use. -/
  | tooLarge
  /-- Bytes are not a text. -/
  | undecodable
  /-- A file could not be read, or something could not be run. -/
  | unavailable
  /-- A command line cannot be split into words. -/
  | command (cause : Command.SplitError)
  /-- The engine answered a request with an error. -/
  | engine (message : Text)
  deriving DecidableEq, Repr

end SfcServer
