import SchemaLang.FieldType
import SchemaLang.Range

/-!
# Attributes

Annotations of packages, imports, types and fields.  Each kind of attribute decides on its own
what it may decorate; `Attribute.applicable` is that decision.
-/

namespace SchemaLang

/-- An annotation of a declaration. -/
inductive Attribute where
  /-- The name a declaration has in generated code. -/
  | exportAs (name : String)
  /-- The precision of a float field. -/
  | precision (step : Float)
  /-- The permitted values of a numeric field. -/
  | range (values : Range)
  /-- Marks a struct, class or enum as a message. -/
  | message
  /-- The schema version of a package. -/
  | version (number : Int)
deriving Repr

/-- What an attribute decorates.  Several fields declared at once are one target, before they are
split into one field for each name. -/
inductive Target where
  | package
  | imported
  | struct
  | enumeration
  | field (type : FieldType)
  | fields (type : FieldType)
deriving DecidableEq, Repr

/-- The type of the field or fields that are decorated. -/
def Target.type? : Target → Option FieldType
  | .field type => some type
  | .fields type => some type
  | .package | .imported | .struct | .enumeration => none

/-- Why an attribute may not decorate a target. -/
inductive AttributeError where
  | ambiguousExportAs
  | exportAsMisplaced
  | precisionNotFloat
  | rangeNotIntegral
  | rangeNotNumeric
  | messageMisplaced
  | versionMisplaced
deriving DecidableEq, Repr

/-- The explanation a user reads. -/
def AttributeError.message : AttributeError → String
  | .ambiguousExportAs => "ExportAs attribute is ambiguous between multiple variables"
  | .exportAsMisplaced =>
      "ExportAs attribute can only be applied to package, classes, structs, enums or variables"
  | .precisionNotFloat => "Precision attribute can only be applied to float variables"
  | .rangeNotIntegral => "Range attribute applied to integer types must be limited by integers"
  | .rangeNotNumeric => "Range attribute cannot be applied to non-numeric types"
  | .messageMisplaced => "Message attribute is only applicable to classes, structs, and enums"
  | .versionMisplaced => "Version attribute can only be applied to package definition"

namespace Attribute

/-- Whether the attribute may decorate the target, and if not, why. -/
def applicable (a : Attribute) (target : Target) : Except AttributeError Unit :=
  match a with
  | .exportAs _ =>
      match target with
      | .fields _ => .error .ambiguousExportAs
      | .imported => .error .exportAsMisplaced
      | .package | .struct | .enumeration | .field _ => .ok ()
  | .precision _ =>
      match target.type? with
      | some (.primitive .float) => .ok ()
      | _ => .error .precisionNotFloat
  | .range values =>
      match target.type?.bind FieldType.primitive? with
      | some primitive =>
          if primitive.isFloatingPoint then .ok ()
          else if primitive.isInteger then
            if values.hasIntegralBounds then .ok () else .error .rangeNotIntegral
          else .error .rangeNotNumeric
      | none => .error .rangeNotNumeric
  | .message =>
      match target with
      | .struct | .enumeration => .ok ()
      | .package | .imported | .field _ | .fields _ => .error .messageMisplaced
  | .version _ =>
      match target with
      | .package => .ok ()
      | .imported | .struct | .enumeration | .field _ | .fields _ => .error .versionMisplaced

/-- The first complaint among several attributes of one target, in the order they were written. -/
def allApplicable (attributes : List Attribute) (target : Target) : Except AttributeError Unit :=
  attributes.forM fun a => a.applicable target

/-- The attribute as outlines write it. -/
def text : Attribute → String
  | .exportAs name => "ExportAs " ++ name
  | .precision step => "Precision " ++ Decimal.plain.write step
  | .range values => "Range " ++ values.text
  | .message => "Message"
  | .version number => "Version " ++ toString number

end Attribute

end SchemaLang
