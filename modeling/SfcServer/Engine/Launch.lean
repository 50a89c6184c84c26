import SfcServer.Uri.Path

/-!
# Finding the engine

The engine is started by a command of the settings, or by its executable: the one on
the search path, one installed in the project, or one beside the running program.
-/

namespace SfcServer

/-- What is known of the machine when the engine is started. -/
structure Machine where
  /-- The executable that a search of the path finds. -/
  onPath : Option Text
  workingFolder : Text
  /-- The path of the running program. -/
  program : Text
  exists? : Text -> Bool

namespace Machine

def engineName : Text := "typescript-language-server".toList

/-- The places beyond the search path, in the order in which they are tried. -/
def candidates (m : Machine) : List Text :=
  let installed := Path.join (Path.join m.workingFolder "node_modules".toList) ".bin".toList
  [Path.join installed engineName, Path.join installed (engineName ++ ".cmd".toList),
    Path.join (Path.folder m.program) engineName]

def executable? (m : Machine) : Option Text :=
  (m.onPath.filter (!·.isEmpty)).or (m.candidates.find? m.exists?)

def commandOf (executable : Text) : List Text :=
  [executable, "--stdio".toList]

def command? (m : Machine) : Option (List Text) :=
  m.executable?.map commandOf

end Machine
end SfcServer
