import SfcServer.Text.Basic

/-!
# Notices

What the server tells the person who reads its log.  Only warnings and errors are
kept; a notice is the headline of what is logged.
-/

namespace SfcServer

inductive NoticeLevel where
  | warning
  | error
  deriving DecidableEq, Repr

structure Notice where
  level : NoticeLevel
  text : Text
  deriving DecidableEq, Repr

namespace Notice

def warning (text : String) : Notice :=
  ⟨.warning, text.toList⟩

def error (text : String) : Notice :=
  ⟨.error, text.toList⟩

def errorOf (text : String) (uri : Text) (rest : String) : Notice :=
  ⟨.error, text.toList ++ uri ++ rest.toList⟩

end Notice
end SfcServer
