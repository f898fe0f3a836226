import SchemaLang.Command.Outcome

/-!
# The program

The outer layer of the command line.  It takes a picture of the files that a command is about, lets
`Command.respond` work on that picture, and writes back the files that are new in it.
-/

namespace SchemaLang.Program

/-- Where the parts of a path lead from a place, by their names alone. -/
def resolve (place : List String) (path : Path) : List String :=
  path.parts.foldl
    (fun place part =>
      if part = "" ∨ part = "." then place
      else if part = ".." then place.dropLast
      else place ++ [part])
    (if path.absolute then [] else place)

/-- The text of the absolute path to a place. -/
def absoluteText (place : List String) : String :=
  "/" ++ String.intercalate "/" place

/-- The node at a real place, if there is one: a directory without its entries, or a file without
its bytes. -/
def bare? (place : List String) : IO (Option FileNode) := do
  let path := (← IO.currentDir) / absoluteText place
  if ← path.isDir then return some (.directory [])
  else if ← path.pathExists then return some (.file .empty)
  else return none

/-- The node at a real place with all that is below it.  Of the files in a directory only the
sources have their bytes. -/
partial def picture? (place : List String) : IO (Option FileNode) := do
  let path := (← IO.currentDir) / absoluteText place
  if ← path.isDir then
    let entries ← path.readDir
    let nodes ← entries.toList.filterMapM fun entry => do
      let below := place ++ [entry.fileName]
      let node ←
        if (← entry.path.isDir) || SourceFile.isSourceName entry.fileName then picture? below
        else bare? below
      return node.map fun node => (entry.fileName, node)
    return some (.directory nodes)
  else if ← path.pathExists then return some (.file (← IO.FS.readBinFile path))
  else return none

/-- Adds the nodes on the way along a path to a picture. -/
def addWay (system : FileSystem) (text : String) : IO FileSystem := do
  let path := Path.ofText text
  let mut system := system
  for length in List.range (path.parts.length + 1) do
    let place := resolve system.workingDirectory { path with parts := path.parts.take length }
    if (system.root.follow? place).isNone then
      if let some node ← bare? place then
        system := { system with root := FileNode.set place node system.root }
  return system

/-- Adds the node at a path with all that is below it. -/
def addTree (system : FileSystem) (text : String) : IO FileSystem := do
  let system ← addWay system text
  let place := resolve system.workingDirectory (.ofText text)
  match ← picture? place with
  | some node => return { system with root := FileNode.set place node system.root }
  | none => return system

/-- The picture of the files that a command is about. -/
def pictureFor (words : List String) : IO FileSystem := do
  let place := (resolve [] (.ofText (← IO.currentDir).toString))
  let start : FileSystem := ⟨.directory [], place⟩
  let start ← addWay start (absoluteText place)
  match Command.ofArguments words with
  | .ok (.run path directory language) => do
      let system ← addWay start (Path.joinText directory language.fileName)
      addTree system path
  | .ok (.printTree path) => addTree start path
  | .error _ => return start

/-- Writes the files that one picture has and another one lacks. -/
def save (before after : FileSystem) : IO Unit := do
  let old := before.root.files
  for file in after.root.files do
    unless old.contains file do
      IO.FS.createDirAll (absoluteText file.1.dropLast)
      IO.FS.writeBinFile (absoluteText file.1) file.2

end SchemaLang.Program

open SchemaLang in
/-- Runs the program on the real files. -/
def main (words : List String) : IO UInt32 := do
  let system ← Program.pictureFor words
  let outcome := Command.respond system words
  Program.save system outcome.system
  IO.print outcome.output
  IO.eprint outcome.errors
  return outcome.code.toUInt32
