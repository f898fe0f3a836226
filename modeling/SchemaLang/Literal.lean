import SchemaLang.Decimal.Reading
import SchemaLang.Package
import SchemaLang.SyntaxError

/-!
# Checked construction

The parts of a schema that a source can get wrong although its grammar is right: literals, numbers,
ranges, and attributes before several field names.  Each function here either makes a part that
keeps its rule or says at which place the rule is broken.
-/

namespace SchemaLang

namespace Literal

/-- The text between the quotes of a string literal. -/
def unquote (literal : String) (place : Location) : Except SyntaxError String :=
  match literal.toList with
  | '"' :: rest =>
      if rest.getLast? = some '"' then .ok (String.ofList rest.dropLast)
      else .error (.malformedString literal place)
  | _ => .error (.malformedString literal place)

/-- The integer of 64 signed bits that a literal writes. -/
def toInt (literal : String) (place : Location) : Except SyntaxError Int :=
  match Decimal.readInt? literal.toList with
  | some n => .ok n
  | none => .error (.invalidNumber literal place)

/-- The size of an array that a literal writes: an integer of 64 signed bits that is not
negative. -/
def toSize (literal : String) (place : Location) : Except SyntaxError Nat :=
  match toInt literal place with
  | .ok (.ofNat n) => .ok n
  | .ok (.negSucc _) => .error (.invalidNumber literal place)
  | .error e => .error e

/-- The float that a literal writes. -/
def toFloat (literal : String) (place : Location) : Except SyntaxError Float :=
  match Decimal.readFloat? literal.toList with
  | some x => .ok x
  | none => .error (.invalidNumber literal place)

end Literal

namespace Attribute

/-- A precision is a number. -/
def ofPrecision (step : Float) (place : Location) : Except SyntaxError Attribute :=
  if step.isNaN then .error (.notANumber place) else .ok (.precision step)

/-- The range attribute with the given bounds. -/
def ofBounds (lower : Float) (lowerInclusive : Bool) (upper : Float) (upperInclusive : Bool)
    (place : Location) : Except SyntaxError Attribute :=
  match Range.make lower lowerInclusive upper upperInclusive with
  | .ok values => .ok (.range values)
  | .error reason => .error (.invalidRange reason place)

end Attribute

namespace Field

/-- The fields that one declaration makes: one for each name, alike but for name and place.  Before
two or more names stand only attributes that may decorate several fields at once. -/
def declare (type : FieldType) (names : List (String × Location)) (attributes : List Attribute)
    (place : Location) : Except SyntaxError (List Field) :=
  let fields := names.map fun (name, here) => ⟨type, name, attributes, here⟩
  if names.length ≤ 1 then .ok fields
  else
    match Attribute.allApplicable attributes (.fields type) with
    | .ok () => .ok fields
    | .error reason => .error (.inapplicableAttribute reason place)

end Field

end SchemaLang
