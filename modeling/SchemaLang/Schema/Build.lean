import SchemaLang.Schema
import SchemaLang.Sources

/-!
# Building a schema from files

Loading and compiling as one step.
-/

namespace SchemaLang

/-- Why the sources at some paths make no schema. -/
inductive BuildError where
  | load (e : LoadError)
  | compile (e : CompileError)
deriving DecidableEq, Repr

namespace BuildError

/-- What went wrong, and what lies behind it. -/
def causes : BuildError → List String
  | .load e => e.causes
  | .compile e => e.causes

/-- The message a user reads: what went wrong first, each cause behind a colon. -/
def message (e : BuildError) : String :=
  String.intercalate ": " e.causes

end BuildError

namespace Schema

/-- The schema that the sources at several paths make together. -/
def ofPaths (system : FileSystem) (paths : List String) : Except BuildError Schema := do
  let packages ← (paths.mapM system.loadPackages).mapError .load
  (compile packages.flatten).mapError .compile

/-- The schema that the sources at one path make. -/
def ofPath (system : FileSystem) (path : String) : Except BuildError Schema :=
  ofPaths system [path]

end Schema

end SchemaLang
