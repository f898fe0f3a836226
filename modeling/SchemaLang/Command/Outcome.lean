import SchemaLang.Command.Arguments
import SchemaLang.Schema.Build

/-!
# Running commands

`Command.respond` is the whole program as a function: from a file system and the words of a command
line to what is printed, the exit code and the file system afterwards.
-/

namespace SchemaLang

/-- What a run of the program leaves behind.  The code is zero on success, one where a schema could
not be made or written, and two where the words of the command line are wrong. -/
structure Outcome where
  system : FileSystem
  code : UInt8
  output : String
  errors : String

namespace Command

/-- A failed run; only the message is printed. -/
def failure (system : FileSystem) (message : String) : Outcome :=
  ⟨system, 1, "", "Error: " ++ message ++ "\n"⟩

/-- The warnings, one on each line. -/
def warningText (warnings : List Warning) : String :=
  String.join (warnings.map fun warning => warning.message ++ "\n")

/-- Compiles the sources at a path, or says why that fails. -/
def build (system : FileSystem) (path : String) : Except String Schema :=
  if system.hasNode (.ofText path) then (Schema.ofPath system path).mapError BuildError.message
  else .error "path not found"

/-- Runs a command. -/
def execute (system : FileSystem) : Command → Outcome
  | .run path directory language =>
      match build system path with
      | .error message => failure system message
      | .ok schema =>
          let warnings := warningText schema.warnings
          match schema.emit language directory system with
          | (after, .ok written) => ⟨after, 0, "Generated: " ++ written ++ "\n", warnings⟩
          | (after, .error e) =>
              ⟨after, 1, "", warnings ++ "Error: " ++ e.message ++ "\n"⟩
  | .printTree path =>
      match build system path with
      | .error message => failure system message
      | .ok schema =>
          ⟨system, 0, Package.outlineText schema.packages, warningText schema.warnings⟩

/-- What the program does when it is called with the given words. -/
def respond (system : FileSystem) (words : List String) : Outcome :=
  match ofArguments words with
  | .ok command => execute system command
  | .error (.help topic) => ⟨system, 0, topic.page, ""⟩
  | .error .version => ⟨system, 0, versionText ++ "\n", ""⟩
  | .error (.usage e) => ⟨system, 2, "", e.message⟩

end Command

end SchemaLang
