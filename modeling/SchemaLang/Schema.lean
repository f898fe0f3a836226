import SchemaLang.LinkedPackages
import SchemaLang.Merge
import SchemaLang.Validation

/-!
# Schemas

Packages that are merged, linked and validated.
-/

namespace SchemaLang

/-- A finished schema with what deserves attention about it. -/
structure Schema where
  linked : LinkedPackages
  warnings : List Warning
deriving Repr

/-- The phase that a list of packages does not pass. -/
inductive CompileError where
  | analysis (e : SemanticError)
  | validation (e : SemanticError)
deriving DecidableEq, Repr

/-- The failed phase, and what lies behind its failure. -/
def CompileError.causes : CompileError → List String
  | .analysis e => "schema analysis failed" :: e.causes
  | .validation e => "schema validation failed" :: e.causes

namespace Schema

/-- The packages of a schema. -/
def packages (schema : Schema) : List Package :=
  schema.linked.packages

/-- Merges, links and validates packages. -/
def compile (fragments : List Package) : Except CompileError Schema := do
  let linked ← (LinkedPackages.ofPackages (Package.merge fragments)).mapError .analysis
  let warnings ← (Package.validate linked.packages).mapError .validation
  return ⟨linked, warnings⟩

end Schema

end SchemaLang
