import SchemaLang.FileSystem
import SchemaLang.Json.Schema
import SchemaLang.Outline
import SchemaLang.Schema

/-!
# Emission

A finished schema is written as JSON or as an outline, to a file that bears the name of the form.
-/

namespace SchemaLang

/-- The forms a schema can be written in. -/
inductive Language where
  | json
  | ast
deriving DecidableEq, Repr

namespace Language

/-- The form that a word names; the case of its letters matters. -/
def ofName? : String → Option Language
  | "json" => some .json
  | "ast" => some .ast
  | _ => none

/-- The word that names a form. -/
def name : Language → String
  | .json => "json"
  | .ast => "ast"

/-- The name of the file that a schema is written to. -/
def fileName (language : Language) : String :=
  "schema." ++ language.name

end Language

/-- The text of packages in a form. -/
def Package.render (packages : List Package) : Language → String
  | .json => (Json.list Package.json packages).pretty
  | .ast => Package.outlineText packages

/-- Why a schema could not be written. -/
inductive EmitError where
  | directory (path : String) (cause : FileError)
  | file (path : String) (cause : FileError)
deriving DecidableEq, Repr

namespace EmitError

/-- What went wrong, and what lies behind it. -/
def causes : EmitError → List String
  | .directory path cause => ["failed to create output directory " ++ path, cause.message]
  | .file path cause => ["failed to write " ++ path, cause.message]

/-- The message a user reads. -/
def message (e : EmitError) : String :=
  String.intercalate ": " e.causes

end EmitError

/-- Writes a schema into a directory, which is made if it is missing, and tells the path of the
file.  The tree is returned also on failure, because directories may have been made. -/
def Schema.emit (schema : Schema) (language : Language) (directory : String)
    (system : FileSystem) : FileSystem × Except EmitError String :=
  match system.makeDirectories (.ofText directory) with
  | (made, .error cause) => (made, .error (.directory directory cause))
  | (made, .ok ()) =>
      let path := Path.joinText directory language.fileName
      match made.writeText (.ofText path) (Package.render schema.packages language) with
      | .error cause => (made, .error (.file path cause))
      | .ok written => (written, .ok path)

end SchemaLang
