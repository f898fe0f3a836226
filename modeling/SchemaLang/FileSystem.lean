import SchemaLang.FileSystem.Path

/-!
# A tree of directories and files

What the compiler reads from and writes to: one tree and a working directory in it.  The operations
fail for the reasons a system gives, and return the tree as they leave it.
-/

namespace SchemaLang

/-- Why an operation on files fails. -/
inductive FileError where
  | notFound
  | alreadyExists
  | notADirectory
  | isADirectory
  /-- A path or a name in it has too many bytes. -/
  | nameTooLong
  /-- A path holds the character that ends texts for the system. -/
  | nulCharacter
  /-- The bytes of a file are no text. -/
  | notText
deriving DecidableEq, Repr

/-- The explanation that the system gives. -/
def FileError.message : FileError → String
  | .notFound => "No such file or directory (os error 2)"
  | .alreadyExists => "File exists (os error 17)"
  | .notADirectory => "Not a directory (os error 20)"
  | .isADirectory => "Is a directory (os error 21)"
  | .nameTooLong => "File name too long (os error 36)"
  | .nulCharacter => "file name contained an unexpected NUL byte"
  | .notText => "stream did not contain valid UTF-8"

/-- A file with its bytes, or a directory with its named entries. -/
inductive FileNode where
  | file (contents : ByteArray)
  | directory (entries : List (String × FileNode))

namespace FileNode

/-- The node that a list of names leads to. -/
def follow? : List String → FileNode → Option FileNode
  | [], node => some node
  | _ :: _, .file _ => none
  | name :: names, .directory entries => (entries.lookup name).bind (follow? names)

/-- The entries with one of them set, or with a new one at the end. -/
def setEntry (name : String) (node : FileNode) :
    List (String × FileNode) → List (String × FileNode)
  | [] => [(name, node)]
  | entry :: entries =>
      if entry.1 = name then (name, node) :: entries else entry :: setEntry name node entries

/-- The tree with the node that a list of names leads to set to another one.  The directories on
the way are expected to be there; without them the tree stays as it is. -/
def set : List String → FileNode → FileNode → FileNode
  | [], new, _ => new
  | _ :: _, _, .file contents => .file contents
  | [name], new, .directory entries => .directory (setEntry name new entries)
  | name :: names, new, .directory entries =>
      match entries.lookup name with
      | none => .directory entries
      | some node => .directory (setEntry name (set names new node) entries)

mutual

/-- The files of a tree, each with the names that lead to it.  The entries of a directory come in
ascending order of their names, a directory with all that is below it. -/
def files : FileNode → List (List String × ByteArray)
  | .file contents => [([], contents)]
  | .directory entries =>
      ((filesOf entries).mergeSort fun a b => a.1 ≤ b.1).flatMap fun entry =>
        entry.2.map fun file => (entry.1 :: file.1, file.2)

/-- The files below each of the given entries. -/
def filesOf : List (String × FileNode) → List (String × List (List String × ByteArray))
  | [] => []
  | (name, node) :: entries => (name, files node) :: filesOf entries

end

end FileNode

/-- A tree and the directory in it that relative paths start from. -/
structure FileSystem where
  root : FileNode
  workingDirectory : List String

namespace FileSystem

/-- The most bytes that a name in a directory has. -/
def nameLimit : Nat := 255

/-- The most bytes that a path has. -/
def pathLimit : Nat := 4095

/-- Refuses the texts that cannot be paths, whatever is in the tree. -/
def checkPath (path : Path) : Except FileError Unit :=
  if path.hasNul then .error .nulCharacter
  else if pathLimit < path.size then .error .nameTooLong
  else .ok ()

/-- The entry of a directory with the given name, if there is one. -/
def entry? (entries : List (String × FileNode)) (name : String) :
    Except FileError (Option FileNode) :=
  if nameLimit < name.utf8ByteSize then .error .nameTooLong
  else .ok (entries.lookup name)

/-- One step along a path from the place `place`, given by the names that lead to it. -/
def step (system : FileSystem) (place : List String) (part : String) :
    Except FileError (List String) :=
  match system.root.follow? place with
  | none => .error .notFound
  | some (.file _) => .error .notADirectory
  | some (.directory entries) =>
      if part = "" ∨ part = "." then .ok place
      else if part = ".." then .ok place.dropLast
      else
        match entry? entries part with
        | .error e => .error e
        | .ok none => .error .notFound
        | .ok (some _) => .ok (place ++ [part])

/-- The place that the parts of a path lead to. -/
def walk (system : FileSystem) (absolute : Bool) (parts : List String) :
    Except FileError (List String) :=
  parts.foldlM system.step (if absolute then [] else system.workingDirectory)

/-- The node at a path. -/
def find (system : FileSystem) (path : Path) : Except FileError FileNode :=
  match checkPath path with
  | .error e => .error e
  | .ok () =>
      if path.isEmpty then .error .notFound
      else
        match system.walk path.absolute path.parts with
        | .error e => .error e
        | .ok place =>
            match system.root.follow? place with
            | some node => .ok node
            | none => .error .notFound

/-- Whether there is anything at a path. -/
def hasNode (system : FileSystem) (path : Path) : Bool :=
  match system.find path with
  | .ok _ => true
  | .error _ => false

/-- Whether there is a directory at a path. -/
def isDirectory (system : FileSystem) (path : Path) : Bool :=
  match system.find path with
  | .ok (.directory _) => true
  | _ => false

/-- The bytes of a file as text. -/
def decode (contents : ByteArray) : Except FileError String :=
  match String.fromUTF8? contents with
  | some text => .ok text
  | none => .error .notText

/-- The text of the file at a path. -/
def readText (system : FileSystem) (path : Path) : Except FileError String :=
  match system.find path with
  | .error e => .error e
  | .ok (.directory _) => .error .isADirectory
  | .ok (.file contents) => decode contents

/-- The directory in which the last part of a path is or would be, with its entries, and that
part. -/
def locate (system : FileSystem) (absolute : Bool) (parts : List String) :
    Except FileError (List String × List (String × FileNode) × String) :=
  match parts.getLast? with
  | none => .error .notFound
  | some last =>
      match system.walk absolute parts.dropLast with
      | .error e => .error e
      | .ok place =>
          match system.root.follow? place with
          | none => .error .notFound
          | some (.file _) => .error .notADirectory
          | some (.directory entries) => .ok (place, entries, last)

/-- The parts of a path without the empty ones at its end. -/
def withoutSlashes (parts : List String) : List String :=
  (parts.reverse.dropWhile String.isEmpty).reverse

/-- Makes one directory.  Slashes at the end of its path do not matter; what `.` and `..` name is
there already. -/
def makeDirectory (system : FileSystem) (path : Path) : Except FileError FileSystem :=
  match checkPath path with
  | .error e => .error e
  | .ok () =>
      if path.isEmpty then .error .notFound
      else if withoutSlashes path.parts = [] then .error .alreadyExists
      else
        match system.locate path.absolute (withoutSlashes path.parts) with
        | .error e => .error e
        | .ok (place, entries, name) =>
            if name = "." ∨ name = ".." then .error .alreadyExists
            else
              match entry? entries name with
              | .error e => .error e
              | .ok (some _) => .error .alreadyExists
              | .ok none =>
                  .ok { system with
                    root := FileNode.set (place ++ [name]) (.directory []) system.root }

/-- Makes a directory and those above it that are missing.  The tree is returned also on failure,
because some of them may have been made. -/
def makeDirectories (system : FileSystem) (path : Path) : FileSystem × Except FileError Unit :=
  if path.isEmpty then (system, .ok ())
  else
    match system.makeDirectory path with
    | .ok made => (made, .ok ())
    | .error .notFound =>
        match _hp : path.parent? with
        | none => (system, .error .notFound)
        | some parent =>
            match makeDirectories system parent with
            | (above, .error e) => (above, .error e)
            | (above, .ok ()) =>
                match above.makeDirectory path with
                | .ok made => (made, .ok ())
                | .error e => (above, if above.isDirectory path then .ok () else .error e)
    | .error e => (system, if system.isDirectory path then .ok () else .error e)
termination_by path.normalParts.length
decreasing_by exact Path.parent?_length_lt _hp

/-- Writes a file, new or over an old one. -/
def write (system : FileSystem) (path : Path) (contents : ByteArray) :
    Except FileError FileSystem :=
  match checkPath path with
  | .error e => .error e
  | .ok () =>
      match system.locate path.absolute path.parts with
      | .error e => .error e
      | .ok (place, entries, name) =>
          if name = "" ∨ name = "." ∨ name = ".." then .error .isADirectory
          else
            match entry? entries name with
            | .error e => .error e
            | .ok (some (.directory _)) => .error .isADirectory
            | .ok _ =>
                .ok { system with
                  root := FileNode.set (place ++ [name]) (.file contents) system.root }

/-- Writes a text into a file. -/
def writeText (system : FileSystem) (path : Path) (text : String) : Except FileError FileSystem :=
  system.write path text.toUTF8

end FileSystem

end SchemaLang
