import SchemaLang.Attribute
import SchemaLang.Location

/-!
# Semantic errors

What can be wrong with packages whose sources were all well formed.
-/

namespace SchemaLang

/-- What is wrong with a list of packages. -/
inductive SemanticError where
  /-- Two packages share a name. -/
  | duplicatePackage (name : String) (place : Location)
  /-- Two definitions share a qualified name; `kind` is that of the later one. -/
  | duplicateType (kind : String) (name : String) (place : Location)
  /-- No definition has the qualified name of a reference. -/
  | unknownType (name : String) (place : Location)
  /-- A parent that is an enum or no definition at all. -/
  | extendsNonStruct (name : String) (place : Location)
  | classExtendsStruct (name parent : String) (place : Location)
  | structExtendsClass (name parent : String) (place : Location)
  /-- A chain of parents that comes back to a definition already on it. -/
  | circularInheritance (chain : List String) (place : Location)
  /-- A field declared at two levels of a chain of parents. -/
  | hiddenMember (name parent member : String) (place : Location)
  /-- An attribute that may not decorate what it stands before. -/
  | inapplicableAttribute (reason : AttributeError) (place : Location)
  /-- A name declared twice, found by the survey of names. -/
  | duplicateDefinition (name : String) (place : Location)
  /-- A name used and declared nowhere, found by the survey of names. -/
  | unknownTypeName (name : String) (place : Location)
deriving DecidableEq, Repr

namespace SemanticError

/-- The place an error is about. -/
def location : SemanticError → Location
  | .duplicatePackage _ place => place
  | .duplicateType _ _ place => place
  | .unknownType _ place => place
  | .extendsNonStruct _ place => place
  | .classExtendsStruct _ _ place => place
  | .structExtendsClass _ _ place => place
  | .circularInheritance _ place => place
  | .hiddenMember _ _ _ place => place
  | .inapplicableAttribute _ place => place
  | .duplicateDefinition _ place => place
  | .unknownTypeName _ place => place

/-- What an error says behind the place it is about. -/
def complaint : SemanticError → String
  | .duplicatePackage name _ => "Package " ++ name ++ " redeclared"
  | .duplicateType kind name _ => kind ++ " " ++ name ++ " redeclared"
  | .unknownType name _ => "Unknown type " ++ name
  | .extendsNonStruct name _ =>
      "Struct or class " ++ name ++ " extends type which is not a struct or class"
  | .classExtendsStruct name parent _ => "Class " ++ name ++ " cannot extend struct " ++ parent
  | .structExtendsClass name parent _ => "Struct " ++ name ++ " cannot extend class " ++ parent
  | .circularInheritance chain _ =>
      "Circular inheritance detected (" ++ String.intercalate ", " chain ++ ")"
  | .hiddenMember name parent member _ =>
      name ++ " declares `" ++ member ++ "` which is already declared by " ++ parent ++
        "; hiding inherited members is not allowed"
  | .inapplicableAttribute reason _ => reason.message
  | .duplicateDefinition name _ => "Package contains duplicate definition of type " ++ name
  | .unknownTypeName name _ => "Unknown type " ++ name

/-- The message a user reads. -/
def message (e : SemanticError) : String :=
  e.location.text ++ ": " ++ e.complaint

/-- The message and the reason that lies behind it, if the error has one of its own. -/
def causes (e : SemanticError) : List String :=
  match e with
  | .inapplicableAttribute reason _ => [e.message, reason.message]
  | _ => [e.message]

end SemanticError

/-- The attributes of one target, checked in the order they were written. -/
def checkAttributes (attributes : List Attribute) (target : Target) (place : Location) :
    Except SemanticError Unit :=
  match Attribute.allApplicable attributes target with
  | .ok () => .ok ()
  | .error reason => .error (.inapplicableAttribute reason place)

end SchemaLang
