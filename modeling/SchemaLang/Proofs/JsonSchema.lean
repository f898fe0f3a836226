import SchemaLang.Json.Schema
import SchemaLang.Emission
import SchemaLang.Proofs.JsonText
import SchemaLang.Proofs.Legible

/-!
# What JSON shows of a schema

The JSON text of packages shows everything they hold, links and places included, but for one thing:
an infinite precision becomes `null` whatever its sign is, although the bounds of ranges keep
theirs.
-/

namespace SchemaLang

open Decimal (IsFinite isFinite_iff_of_number eq_of_plain_write_eq)

/-! ### Packages without the signs of infinite precisions -/

def Attribute.blurred : Attribute → Attribute
  | .precision step => .precision (if step.isInf then 1.0 / 0.0 else step)
  | .exportAs name => .exportAs name
  | .range values => .range values
  | .message => .message
  | .version number => .version number

def Field.blurred (field : Field) : Field :=
  { field with attributes := field.attributes.map Attribute.blurred }

def Struct.blurred (s : Struct) : Struct :=
  { s with
    fields := s.fields.map Field.blurred
    attributes := s.attributes.map Attribute.blurred }

def Enumeration.blurred (e : Enumeration) : Enumeration :=
  { e with attributes := e.attributes.map Attribute.blurred }

def Definition.blurred : Definition → Definition
  | .struct s => .struct s.blurred
  | .enumeration e => .enumeration e.blurred

def Import.blurred (imported : Import) : Import :=
  { imported with attributes := imported.attributes.map Attribute.blurred }

/-- The package where every infinite precision is positive. -/
def Package.blurred (package : Package) : Package :=
  { package with
    imports := package.imports.map Import.blurred
    definitions := package.definitions.map Definition.blurred
    attributes := package.attributes.map Attribute.blurred }

/-! ### Parts without floats -/

namespace Json

theorem shown_list {α : Type} (encode : α → Json) (l : List α) :
    (list encode l).shown = list (fun a => (encode a).shown) l := by
  have hitems : ∀ l : List α, shownItems (l.map encode) = l.map fun a => (encode a).shown := by
    intro l
    induction l with
    | nil => rfl
    | cons a l ih => rw [List.map_cons, shownItems, ih, List.map_cons]
  rw [list, shown, hitems, list]

/-- What the items show, an array of them shows. -/
theorem shows_list {α β : Type} {P : α → Prop} {encode : α → Json} {g : α → β}
    (h : Shows P (fun a => (encode a).shown) g) :
    Shows (fun l : List α => ∀ a ∈ l, P a) (fun l => (list encode l).shown) (List.map g) := by
  intro l m hl hm
  show (list encode l).shown = (list encode m).shown ↔ _
  rw [← h.map l m hl hm, shown_list, shown_list, list, list, array.injEq]

end Json

open Json (shown shownMembers)

@[simp] theorem Location.shown_json (place : Location) : place.json.shown = place.json := by
  simp [json, shown, shownMembers]

@[simp] theorem Location.json_inj {place other : Location} :
    place.json = other.json ↔ place = other := by
  cases place
  cases other
  simp [json, UInt32.toNat_inj]

@[simp] theorem DefinitionId.shown_json (id : DefinitionId) : id.json.shown = id.json := by
  simp [json, shown, shownMembers]

@[simp] theorem DefinitionId.json_inj {id other : DefinitionId} :
    id.json = other.json ↔ id = other := by
  cases id
  cases other
  simp [json]

/-- A link is shown, or that there is none. -/
theorem DefinitionId.optional_json_inj {id other : Option DefinitionId} :
    (Json.optional json id).shown = (Json.optional json other).shown ↔ id = other := by
  cases id with
  | none => cases other <;> simp [Json.optional, shown, json, shownMembers]
  | some id =>
      cases other with
      | none => simp [Json.optional, shown, json, shownMembers]
      | some other => simp [Json.optional]

theorem ArraySize.shown_json_inj {m n : ArraySize} : m.json.shown = n.json.shown ↔ m = n := by
  cases m <;> cases n <;> simp [json, shown, shownMembers]

theorem FieldType.shown_json_inj {t u : FieldType} : t.json.shown = u.json.shown ↔ t = u := by
  induction t generalizing u with
  | primitive p =>
      cases u with
      | primitive q => simp [json, shown, shownMembers, Primitive.name_inj]
      | array element size => simp [json, shown, shownMembers]
      | named reference => simp [json, shown, shownMembers]
  | array element size ih =>
      cases u with
      | primitive q => simp [json, shown, shownMembers]
      | array element' size' =>
          simp [json, shown, shownMembers, ih, ArraySize.shown_json_inj]
      | named reference => simp [json, shown, shownMembers]
  | named reference =>
      cases u with
      | primitive q => simp [json, shown, shownMembers]
      | array element size => simp [json, shown, shownMembers]
      | named other =>
          cases reference
          cases other
          simp [json, shown, shownMembers, DefinitionId.optional_json_inj]

/-! ### Attributes -/

section Floats

variable {x y : Float} (hx : x.isNaN = false) (hy : y.isNaN = false)
include hx

theorem shown_real (hinf : x.isInf = false) : (Json.real x).shown = .real x := by
  rw [shown, if_pos ((isFinite_iff_of_number hx).mpr hinf)]

theorem shown_real_of_isInf (hinf : x.isInf = true) : (Json.real x).shown = .null := by
  have hfinite : ¬ IsFinite x.toBits := by
    rw [isFinite_iff_of_number hx, hinf]
    exact Bool.noConfusion
  rw [shown, if_neg hfinite]

include hy

/-- A bound of a range is shown, also an infinite one. -/
theorem Range.shown_boundJson_inj : (boundJson x).shown = (boundJson y).shown ↔ x = y := by
  refine ⟨fun h => ?_, fun h => by rw [h]⟩
  unfold boundJson at h
  cases hxinf : x.isInf with
  | false =>
      rw [hxinf, if_neg Bool.noConfusion, shown_real hx hxinf] at h
      cases hyinf : y.isInf with
      | false =>
          rw [hyinf, if_neg Bool.noConfusion, shown_real hy hyinf] at h
          exact Json.real.inj h
      | true =>
          rw [hyinf, if_pos rfl, shown] at h
          cases h
  | true =>
      rw [hxinf, if_pos rfl, shown] at h
      cases hyinf : y.isInf with
      | false =>
          rw [hyinf, if_neg Bool.noConfusion, shown_real hy hyinf] at h
          cases h
      | true =>
          rw [hyinf, if_pos rfl, shown] at h
          exact eq_of_plain_write_eq hx hy (Json.string.inj h)

/-- A precision is shown, but of an infinite one only that it is infinite. -/
theorem shown_precision_iff : (Json.real x).shown = (Json.real y).shown ↔
    (if x.isInf then 1.0 / 0.0 else x) = if y.isInf then 1.0 / 0.0 else y := by
  have hinfinity : (1.0 / 0.0 : Float).isInf = true := by decide
  cases hxinf : x.isInf with
  | false =>
      cases hyinf : y.isInf with
      | false => simp [shown_real hx hxinf, shown_real hy hyinf]
      | true =>
          have hne : x ≠ 1.0 / 0.0 := by
            rintro rfl
            rw [hinfinity] at hxinf
            cases hxinf
          simp [shown_real hx hxinf, shown_real_of_isInf hy hyinf, hne]
  | true =>
      cases hyinf : y.isInf with
      | false =>
          have hne : 1.0 / 0.0 ≠ y := by
            rintro rfl
            rw [hinfinity] at hyinf
            cases hyinf
          simp [shown_real_of_isInf hx hxinf, shown_real hy hyinf, hne]
      | true => simp [shown_real_of_isInf hx hxinf, shown_real_of_isInf hy hyinf]

end Floats

theorem Range.shown_json_inj {a b : Range} (ha : a.lower.isNaN = false ∧ a.upper.isNaN = false)
    (hb : b.lower.isNaN = false ∧ b.upper.isNaN = false) :
    a.json.shown = b.json.shown ↔ a = b := by
  cases a
  cases b
  simp [json, shown, shownMembers, shown_boundJson_inj ha.1 hb.1, shown_boundJson_inj ha.2 hb.2]

theorem shows_attribute_json :
    Shows Attribute.Legible (fun a => a.json.shown) Attribute.blurred := by
  intro a b ha hb
  cases a <;> cases b <;> simp [Attribute.json, Attribute.blurred, shown, shownMembers]
  case precision.precision => exact shown_precision_iff ha hb
  case range.range => exact Range.shown_json_inj ha hb

/-! ### Packages -/

theorem shows_field_json : Shows Field.Legible (fun f => f.json.shown) Field.blurred := by
  intro a b ha hb
  simp [Field.json, Field.blurred, shown, shownMembers, FieldType.shown_json_inj,
    Json.shows_list shows_attribute_json _ _ ha.attributes hb.attributes]

/-- A name is shown, or that there is none. -/
theorem shown_optional_string_inj {name other : Option String} :
    (Json.optional .string name).shown = (Json.optional .string other).shown ↔ name = other := by
  cases name <;> cases other <;> simp [Json.optional, shown]

theorem shows_struct_json : Shows Struct.Legible (fun s => s.json.shown) Struct.blurred := by
  intro a b ha hb
  have hattributes := Json.shows_list shows_attribute_json _ _ ha.attributes hb.attributes
  have hfields := Json.shows_list shows_field_json _ _ ha.fields hb.fields
  simp only [Struct.json, Struct.blurred, shown, shownMembers, Json.object.injEq,
    List.cons.injEq, Prod.mk.injEq, Json.string.injEq, Json.bool.injEq, Location.shown_json,
    Location.json_inj, Struct.mk.injEq, shown_optional_string_inj, DefinitionId.optional_json_inj,
    hattributes, hfields, true_and, and_true]

theorem shows_enumeration_json :
    Shows Enumeration.Legible (fun e => e.json.shown) Enumeration.blurred := by
  intro a b ha hb
  have hattributes := Json.shows_list shows_attribute_json _ _ ha.attributes hb.attributes
  have henumeral : Shows (fun _ => True) (fun e => (Enumeral.json e).shown) id := fun a b _ _ => by
    cases a
    cases b
    simp [Enumeral.json, shown, shownMembers]
  have henumerals := Json.shows_list henumeral a.enumerals b.enumerals (by simp) (by simp)
  rw [List.map_id, List.map_id] at henumerals
  simp only [Enumeration.json, Enumeration.blurred, shown, shownMembers, Json.object.injEq,
    List.cons.injEq, Prod.mk.injEq, Json.string.injEq, Location.shown_json,
    Location.json_inj, Enumeration.mk.injEq, hattributes, henumerals, true_and, and_true]

theorem shows_definition_json :
    Shows Definition.Legible (fun d => d.json.shown) Definition.blurred := by
  intro a b ha hb
  cases a with
  | struct s =>
      cases b with
      | struct t =>
          simpa [Definition.json, Definition.blurred, shown, shownMembers] using
            shows_struct_json s t ha hb
      | enumeration e => simp [Definition.json, Definition.blurred, shown, shownMembers]
  | enumeration e =>
      cases b with
      | struct s => simp [Definition.json, Definition.blurred, shown, shownMembers]
      | enumeration e' =>
          simpa [Definition.json, Definition.blurred, shown, shownMembers] using
            shows_enumeration_json e e' ha hb

theorem shows_import_json : Shows Import.Legible (fun i => i.json.shown) Import.blurred := by
  intro a b ha hb
  simp [Import.json, Import.blurred, shown, shownMembers,
    Json.shows_list shows_attribute_json _ _ ha.attributes hb.attributes]

theorem shows_package_json : Shows Package.Legible (fun p => p.json.shown) Package.blurred := by
  intro a b ha hb
  have hattributes := Json.shows_list shows_attribute_json _ _ ha.attributes hb.attributes
  have himports := Json.shows_list shows_import_json _ _ ha.imports hb.imports
  have hdefinitions := Json.shows_list shows_definition_json _ _ ha.definitions hb.definitions
  simp only [Package.json, Package.blurred, shown, shownMembers, Json.object.injEq,
    List.cons.injEq, Prod.mk.injEq, Json.string.injEq, Location.shown_json,
    Location.json_inj, Package.mk.injEq, hattributes, himports, hdefinitions, true_and, and_true]
  tauto

/-- The JSON text of legible packages shows them but for the signs of infinite precisions. -/
theorem Package.render_json_eq_iff_of_legible {packages others : List Package}
    (hpackages : ∀ package ∈ packages, package.Legible)
    (hothers : ∀ package ∈ others, package.Legible) :
    render packages .json = render others .json ↔ packages.map blurred = others.map blurred := by
  rw [render, render, Json.pretty_eq_iff]
  exact Json.shows_list shows_package_json packages others hpackages hothers

theorem Package.legible_of_compile {fragments : List Package}
    (h : ∀ fragment ∈ fragments, ∃ text source, parse text source = .ok fragment)
    {schema : Schema} (hcompile : Schema.compile fragments = .ok schema) :
    ∀ package ∈ schema.packages, package.Legible := by
  have hfragments : ∀ fragment ∈ fragments, fragment.Legible := by
    intro fragment hfragment
    obtain ⟨text, source, hparse⟩ := h fragment hfragment
    exact legible_of_parse hparse
  obtain ⟨-, rfl⟩ := (Schema.succeedsIff_compile fragments).of_eq_ok hcompile
  intro package hpackage
  obtain ⟨merged, hmerged, rfl⟩ := List.mem_map.mp hpackage
  exact (legible_merge hfragments merged hmerged).resolved _

/-- Two schemas that are compiled from sources have the same JSON text exactly if their linked
packages agree but for the signs of infinite precisions. -/
theorem Schema.render_json_eq_iff {fragments others : List Package}
    (hfragments : ∀ fragment ∈ fragments, ∃ text source, Package.parse text source = .ok fragment)
    (hothers : ∀ fragment ∈ others, ∃ text source, Package.parse text source = .ok fragment)
    {a b : Schema} (ha : compile fragments = .ok a) (hb : compile others = .ok b) :
    Package.render a.packages .json = Package.render b.packages .json ↔
      a.packages.map Package.blurred = b.packages.map Package.blurred :=
  Package.render_json_eq_iff_of_legible (Package.legible_of_compile hfragments ha)
    (Package.legible_of_compile hothers hb)

/-! ### The sign of an infinite precision -/

namespace Precise

open Grammar

/-- The package of a source that declares one float field of some precision. -/
def package (step : Float) : Package :=
  ⟨"p", [], [.struct ⟨"S", false, none, none,
    [⟨.primitive .float, "x", [.precision step], ⟨46, 1, 47, ""⟩⟩], [], ⟨12, 1, 13, ""⟩⟩], [],
    ⟨0, 1, 1, ""⟩⟩

/-- The declaration of that field. -/
def field (step : SumTree) : Grammar.Declaration where
  attributes := [(⟨tokenAt 23 .at "@", rfl, trivial⟩, .single (.precision
    ⟨tokenAt 24 .identifier "precision", by decide, trivial⟩ ⟨tokenAt 33 .colon ":", rfl, trivial⟩
    step))]
  type := ⟨⟨tokenAt 40 .identifier "float", rfl, trivial⟩, []⟩
  first := ⟨tokenAt 46 .identifier "x", by decide, trivial⟩
  others := []

/-- A derivation of such a source. -/
def tree (step : SumTree) : PackageTree :=
  oneStruct [field step] 48

/-- The expression `inf`. -/
def infinity : OperandTree :=
  .infinity ⟨tokenAt 36 .identifier "inf", by decide, trivial⟩

theorem meaning_tree (step : SumTree) :
    Grammar.package.meaning (tree step) = package step.expr.value := by
  have hname : Literal.textOf "\"p\"" = "p" := by decide
  simp [tree, oneStruct, wordAt, field, Grammar.package, Rule.many, item, attributes, element, Grammar.struct,
    Rule.braced, declaration, Rule.map, Rule.behind, group, entry, placedName, typed, constant,
    parentClause, Package.add, Package.addDefinition, Package.empty, Rule.terminal, tokenAt,
    package, hname, FieldType.ofWord, Primitive.ofKeyword?]

theorem admissible_tree {step : SumTree} (h : step.expr.value.isNaN = false) :
    Grammar.package.Admissible (tree step) := by
  have hnone {τ α : Type} (r : Rule τ α) : ∀ x ∈ ([] : List τ), r.Admissible x :=
    fun _ hx => nomatch hx
  have hdeclaration : declaration.Admissible (field step) :=
    ⟨List.forall_mem_singleton.mpr h, hnone _, fun hothers => absurd rfl hothers⟩
  exact ⟨hnone _, List.forall_mem_singleton.mpr
    ⟨hnone _, List.forall_mem_singleton.mpr hdeclaration⟩⟩

/-- Infinite precisions of both signs. -/
def positive : SumTree :=
  .product (.unary (.operand infinity))

def negative : SumTree :=
  .product (.unary (.negated ⟨tokenAt 35 .minus "-", rfl, trivial⟩ (.operand infinity)))

theorem parse_positive :
    Package.parse "package \"p\" struct S \x7b @precision:  inf float x \x7d" "" =
      .ok (package (1.0 / 0.0)) :=
  Package.parse_eq_ok_iff.mpr ⟨tree positive, by with_unfolding_all rfl,
    admissible_tree (by decide), (meaning_tree positive).symm⟩

theorem parse_negative :
    Package.parse "package \"p\" struct S \x7b @precision: -inf float x \x7d" "" =
      .ok (package (-(1.0 / 0.0))) :=
  Package.parse_eq_ok_iff.mpr ⟨tree negative, by with_unfolding_all rfl,
    admissible_tree (by decide), (meaning_tree negative).symm⟩

theorem compile_package (step : Float) : ∃ schema,
    Schema.compile [package step] = .ok schema ∧ schema.packages = [package step] :=
  ⟨.resolved [package step], by cbv, by cbv⟩

theorem blurred_package : (package (1.0 / 0.0)).blurred = (package (-(1.0 / 0.0))).blurred := by
  have hpositive : (1.0 / 0.0 : Float).isInf = true := by decide
  have hnegative : (-(1.0 / 0.0) : Float).isInf = true := by decide
  simp [package, Package.blurred, Definition.blurred, Struct.blurred, Field.blurred,
    Attribute.blurred, hpositive, hnegative]

end Precise

open Precise

/-- The schemas of the two sources have the same JSON text. -/
theorem Schema.render_json_eq_iff_infinite_precision : ∃ a b,
    compile [package (1.0 / 0.0)] = .ok a ∧ compile [package (-(1.0 / 0.0))] = .ok b ∧
      Package.render a.packages .json = Package.render b.packages .json := by
  obtain ⟨a, ha, hpackages⟩ := compile_package (1.0 / 0.0)
  obtain ⟨b, hb, hpackages'⟩ := compile_package (-(1.0 / 0.0))
  refine ⟨a, b, ha, hb, (render_json_eq_iff
    (List.forall_mem_singleton.mpr ⟨_, _, parse_positive⟩)
    (List.forall_mem_singleton.mpr ⟨_, _, parse_negative⟩) ha hb).mpr ?_⟩
  rw [hpackages, hpackages', List.map_singleton, List.map_singleton, blurred_package]

/-- The JSON text of a schema does not tell infinite precisions of different signs apart. -/
theorem Schema.render_json_hides_sign : ∃ fragment other a b,
    Package.parse "package \"p\" struct S \x7b @precision:  inf float x \x7d" "" = .ok fragment ∧
      Package.parse "package \"p\" struct S \x7b @precision: -inf float x \x7d" "" = .ok other ∧
      compile [fragment] = .ok a ∧ compile [other] = .ok b ∧
      Package.render a.packages .json = Package.render b.packages .json ∧
      a.packages ≠ b.packages := by
  obtain ⟨a, ha, hpackages⟩ := compile_package (1.0 / 0.0)
  obtain ⟨b, hb, hpackages'⟩ := compile_package (-(1.0 / 0.0))
  refine ⟨_, _, a, b, parse_positive, parse_negative, ha, hb, ?_, ?_⟩
  · have hlegible := Package.legible_of_parse parse_positive
    have hlegible' := Package.legible_of_parse parse_negative
    rw [hpackages, hpackages']
    refine (Package.render_json_eq_iff_of_legible (List.forall_mem_singleton.mpr hlegible)
      (List.forall_mem_singleton.mpr hlegible')).mpr ?_
    rw [List.map_singleton, List.map_singleton, blurred_package]
  · rw [hpackages, hpackages']
    intro h
    have hsteps : (1.0 / 0.0 : Float) = -(1.0 / 0.0) := by simpa [package] using h
    exact absurd (congrArg Float.toBits hsteps) (by decide)

end SchemaLang
