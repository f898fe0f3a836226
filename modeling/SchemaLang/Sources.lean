import SchemaLang.FileSystem
import SchemaLang.Package.Reader

/-!
# Sources in a file system

A path leads to one source or to a directory of them.  `FileSystem.sources` lists the files that
are meant, and `FileSystem.loadPackages` reads and parses them in that order up to the first one
that is wrong.  Listing a directory is taken to succeed; reading a file that was listed may fail,
for its path may be longer than the system allows.
-/

namespace SchemaLang

/-- A file that holds a schema source.  Places in the source and messages about the file carry its
name. -/
structure SourceFile where
  name : String
  contents : ByteArray

/-- Why the sources at a path cannot be loaded. -/
inductive LoadError where
  /-- There is nothing to be read at the path. -/
  | inaccessible (path : String) (cause : FileError)
  | unreadable (path : String) (cause : FileError)
  | malformed (path : String) (cause : SyntaxError)
  /-- A directory without a single source below it. -/
  | noSources (path : String)
deriving DecidableEq, Repr

/-- What went wrong, and what lies behind it. -/
def LoadError.causes : LoadError → List String
  | .inaccessible path cause => ["failed to access " ++ path, cause.message]
  | .unreadable path cause => ["failed to read " ++ path, cause.message]
  | .malformed path cause => ("failed to parse " ++ path) :: cause.causes
  | .noSources path => ["no .sdl files found in " ++ path]

namespace SourceFile

/-- Names of files that hold sources: they end in `.sdl` and have something in front of that. -/
def isSourceName (name : String) : Bool :=
  match name.toList.reverse with
  | 'l' :: 'd' :: 's' :: '.' :: _ :: _ => true
  | _ => false

/-- The text of a file, which the system opens by its name. -/
def read (file : SourceFile) : Except FileError String := do
  FileSystem.checkPath (.ofText file.name)
  FileSystem.decode file.contents

/-- The package that a file holds. -/
def load (file : SourceFile) : Except LoadError Package :=
  match file.read with
  | .error cause => .error (.unreadable file.name cause)
  | .ok text =>
      match Package.parse text file.name with
      | .error cause => .error (.malformed file.name cause)
      | .ok package => .ok package

end SourceFile

/-- The sources below a directory of the given name, in ascending order of the names that lead to
them. -/
def FileNode.sources (node : FileNode) (name : String) : List SourceFile :=
  (node.files.filter fun file => (file.1.getLast?.map SourceFile.isSourceName).getD false).map
    fun file => ⟨file.1.foldl Path.joinText name, file.2⟩

namespace FileSystem

/-- The sources at a path.  A file is one whatever its name; a directory must hold at least
one. -/
def sources (system : FileSystem) (path : String) : Except LoadError (List SourceFile) :=
  match system.find (.ofText path) with
  | .error cause => .error (.inaccessible path cause)
  | .ok (.file contents) => .ok [⟨path, contents⟩]
  | .ok (.directory entries) =>
      match (FileNode.directory entries).sources path with
      | [] => .error (.noSources path)
      | files => .ok files

/-- The packages that the sources at a path hold. -/
def loadPackages (system : FileSystem) (path : String) : Except LoadError (List Package) := do
  let files ← system.sources path
  files.mapM SourceFile.load

end FileSystem

end SchemaLang
