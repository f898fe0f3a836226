import SchemaLang.Package
import SchemaLang.SemanticError

/-!
# Validation by names

A check of packages that needs no table and no links: the attributes once more, and a survey of the
names that are declared and the names that are used.  It can be made of one package alone; names of
other packages are then unknown.
-/

namespace SchemaLang

/-- A qualified name and the place where it is declared or used. -/
structure Mention where
  name : String
  place : Location
deriving DecidableEq, Repr

/-- What deserves attention and is no error. -/
inductive Warning where
  /-- No package declares a type; the last package is named. -/
  | nothingDeclared (package : String)
deriving DecidableEq, Repr

/-- The message a user reads. -/
def Warning.message : Warning → String
  | .nothingDeclared package => "Warning: Nothing declared in package " ++ package ++ "."

/-- The names that packages declare and use, each in the order of the sources. -/
structure Survey where
  declared : List Mention
  used : List Mention
deriving DecidableEq, Repr

namespace Survey

/-- The survey of two stretches, one after the other. -/
def append (a b : Survey) : Survey :=
  ⟨a.declared ++ b.declared, a.used ++ b.used⟩

/-- The use of a type name in the given package. -/
def ofReference (package : Package) (reference : Reference) (place : Location) : Survey :=
  ⟨[], [⟨reference.qualifiedIn package.name, place⟩]⟩

/-- The declaration of a type in the given package. -/
def ofDeclaration (package : Package) (d : Definition) : Survey :=
  ⟨[⟨package.qualify d.name, d.location⟩], []⟩

/-- The names in a field. -/
def ofField (package : Package) (field : Field) : Except SemanticError Survey := do
  checkAttributes field.attributes (.field field.type) field.location
  return match field.type.reference? with
    | none => ⟨[], []⟩
    | some reference => ofReference package reference field.location

/-- The names in a definition.  A struct uses the name of its parent before those of its fields. -/
def ofDefinition (package : Package) : Definition → Except SemanticError Survey
  | .struct s => do
      checkAttributes s.attributes .struct s.location
      let parent := match s.parent with
        | none => ⟨[], []⟩
        | some reference => ofReference package reference s.location
      let fields ← s.fields.mapM (ofField package)
      return fields.foldl append ((ofDeclaration package (.struct s)).append parent)
  | .enumeration e => do
      checkAttributes e.attributes .enumeration e.location
      return ofDeclaration package (.enumeration e)

/-- The names in a package, whose own attributes and imports are checked before its definitions. -/
def ofPackage (package : Package) : Except SemanticError Survey := do
  checkAttributes package.attributes .package package.location
  package.imports.forM fun imported =>
    checkAttributes imported.attributes .imported imported.location
  let definitions ← package.definitions.mapM (ofDefinition package)
  return definitions.foldl append ⟨[], []⟩

/-- The names in a list of packages. -/
def ofPackages (packages : List Package) : Except SemanticError Survey := do
  let surveys ← packages.mapM ofPackage
  return surveys.foldl append ⟨[], []⟩

/-- The second mention of the first name that is mentioned more than once. -/
def firstRepeated? : List Mention → Option Mention
  | [] => none
  | m :: ms =>
      match ms.find? fun later => later.name = m.name with
      | some later => some later
      | none => firstRepeated? ms

/-- The first used name that is declared nowhere. -/
def firstUnknown? (survey : Survey) : Option Mention :=
  survey.used.find? fun m => survey.declared.all fun d => d.name ≠ m.name

end Survey

namespace Package

/-- Checks the names of all packages together and tells what deserves attention.  Without any
declaration there is only a warning, whatever names are used. -/
def validate (packages : List Package) : Except SemanticError (List Warning) := do
  let survey ← Survey.ofPackages packages
  if survey.declared.isEmpty then
    return [.nothingDeclared ((packages.getLast?.map Package.name).getD "")]
  else
    match Survey.firstRepeated? survey.declared with
    | some m => .error (.duplicateDefinition m.name m.place)
    | none =>
        match survey.firstUnknown? with
        | some m => .error (.unknownTypeName m.name m.place)
        | none => return []

end Package

end SchemaLang
