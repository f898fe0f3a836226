import SchemaLang.Emission

/-!
# Commands

What the command line can be asked to do, and the words that name it: subcommands, the slots that
the values of a subcommand fill in order, and flags.
-/

namespace SchemaLang

/-- A command with all its values. -/
inductive Command where
  /-- Compiles the sources at a path and writes the schema into a directory. -/
  | run (path directory : String) (language : Language)
  /-- Compiles the sources at a path and prints the outline of the schema. -/
  | printTree (path : String)
deriving DecidableEq, Repr

namespace Command

/-- The name of the program. -/
def programName : String := "sdlc"

/-- The name of the program and its version. -/
def versionText : String := programName ++ " 0.0.1"

/-- The words that start a command. -/
inductive Verb where
  | run
  | printTree
deriving DecidableEq, Repr

/-- A value that a command needs. -/
inductive Slot where
  | path
  | directory
  | language
deriving DecidableEq, Repr

namespace Verb

/-- The command that a word starts. -/
def ofName? : String → Option Verb
  | "run" => some .run
  | "print-ast" => some .printTree
  | _ => none

def name : Verb → String
  | .run => "run"
  | .printTree => "print-ast"

/-- The values of a command, in the order they are given. -/
def slots : Verb → List Slot
  | .run => [.path, .directory, .language]
  | .printTree => [.path]

end Verb

/-- A slot as help and messages write it. -/
def Slot.text : Slot → String
  | .path => "<PATH>"
  | .directory => "<OUTPUT_PATH>"
  | .language => "<LANG>"

/-- The flags. -/
inductive Flag where
  | verbose
  | help
  | version
deriving DecidableEq, Repr

/-- A flag as help and messages write it. -/
def Flag.text : Flag → String
  | .verbose => "--verbose"
  | .help => "--help"
  | .version => "--version"

/-- A level of the command line: the program itself or a command of it.  Each has flags and a page
of help of its own. -/
inductive Level where
  | program
  | verb (verb : Verb)
deriving DecidableEq, Repr

namespace Level

/-- The flag that a long name stands for.  Only the program has a version. -/
def flagOfName? (level : Level) (name : String) : Option Flag :=
  if name = "verbose" then some .verbose
  else if name = "help" then some .help
  else if name = "version" && level = .program then some .version
  else none

/-- The flag that a letter stands for. -/
def flagOfLetter? (level : Level) (letter : Char) : Option Flag :=
  if letter = 'v' then some .verbose
  else if letter = 'h' then some .help
  else if letter = 'V' && level = .program then some .version
  else none

end Level

end Command

end SchemaLang
