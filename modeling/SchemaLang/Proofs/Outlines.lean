import SchemaLang.Proofs.DecimalText
import SchemaLang.Proofs.OutlineText
import SchemaLang.Proofs.RangeBounds

/-!
# What outlines show

The outline of packages shows everything but places and links: whatever packages are read from
sources, their outlines have the same text exactly if the packages agree in all the rest.
-/

namespace SchemaLang

/-! ### Packages without places and links -/

def FieldType.bare : FieldType → FieldType
  | .primitive p => .primitive p
  | .array element size => .array element.bare size
  | .named reference => .named (.unlinked reference.name)

def Field.bare (field : Field) : Field :=
  { field with type := field.type.bare, location := default }

def Struct.bare (s : Struct) : Struct :=
  { s with
    parentId := none
    fields := s.fields.map Field.bare
    location := default }

def Enumeral.bare (enumeral : Enumeral) : Enumeral :=
  { enumeral with location := default }

def Enumeration.bare (e : Enumeration) : Enumeration :=
  { e with enumerals := e.enumerals.map Enumeral.bare, location := default }

def Definition.bare : Definition → Definition
  | .struct s => .struct s.bare
  | .enumeration e => .enumeration e.bare

def Import.bare (imported : Import) : Import :=
  { imported with location := default }

/-- The package with no place in it and no link. -/
def Package.bare (package : Package) : Package :=
  { package with
    imports := package.imports.map Import.bare
    definitions := package.definitions.map Definition.bare
    location := default }

/-! ### The texts of attributes -/

namespace Decimal

/-- What numbers and infinities consist of in plain style. -/
theorem of_mem_plain_write {x : Float} (hx : x.isNaN = false) {c : Char}
    (hc : c ∈ (plain.write x).toList) : Style.isNumeral c ∨ c ∈ ['i', 'n', 'f'] := by
  cases hinf : x.isInf with
  | false => exact .inl (plain.isNumeral_of_mem_write ((isFinite_iff_of_number hx).mpr hinf) c hc)
  | true =>
      rw [plain.write_of_isInf hinf] at hc
      split at hc
      · have hword : c = '-' ∨ c ∈ ['i', 'n', 'f'] := by simpa [plain] using hc
        rcases hword with rfl | hword
        · exact .inl rfl
        · exact .inr hword
      · exact .inr (by simpa [plain] using hc)

theorem not_mem_plain_write {x : Float} (hx : x.isNaN = false) {c : Char}
    (hc : ¬ (Style.isNumeral c ∨ c ∈ ['i', 'n', 'f'])) : c ∉ (plain.write x).toList :=
  fun hmem => hc (of_mem_plain_write hx hmem)

end Decimal

open Decimal (isDigits_toString not_mem_plain_write eq_of_plain_write_eq)

/-- A range is read off its text: no bound has a comma in it. -/
theorem Range.eq_of_text_eq {a b : Range} (ha : a.lower.isNaN = false ∧ a.upper.isNaN = false)
    (hb : b.lower.isNaN = false ∧ b.upper.isNaN = false) (h : a.text = b.text) : a = b := by
  have hcomma {x : Float} (hx : x.isNaN = false) :
      ∀ c ∈ (Decimal.plain.write x).toList, (c ≠ ',' : Bool) := by
    intro c hc
    have hne : c ≠ ',' := by
      rintro rfl
      exact not_mem_plain_write hx (by decide) hc
    simpa using hne
  obtain ⟨lower, upper, lowerInclusive, upperInclusive⟩ := a
  obtain ⟨lower', upper', lowerInclusive', upperInclusive'⟩ := b
  have hchars := congrArg String.toList h
  simp only [text, String.toList_append] at hchars
  obtain ⟨hopening, hrest⟩ : lowerInclusive = lowerInclusive' ∧
      (Decimal.plain.write lower).toList ++ (", ".toList ++ ((Decimal.plain.write upper).toList ++
        (if upperInclusive then "]" else ">").toList)) =
      (Decimal.plain.write lower').toList ++ (", ".toList ++ ((Decimal.plain.write upper').toList ++
        (if upperInclusive' then "]" else ">").toList)) := by
    cases lowerInclusive <;> cases lowerInclusive' <;> simp at hchars ⊢ <;> exact hchars
  obtain ⟨hlower, hrest⟩ :=
    append_inj_of_class (hcomma ha.1) (hcomma hb.1) (by simp) (by simp) hrest
  -- The closing bracket is one character in any case.
  obtain ⟨hupper, hclosing⟩ :=
    List.append_inj' (List.append_cancel_left hrest) (by split <;> split <;> rfl)
  obtain rfl := eq_of_plain_write_eq ha.1 hb.1 (String.toList_inj.mp hlower)
  obtain rfl := eq_of_plain_write_eq ha.2 hb.2 (String.toList_inj.mp hupper)
  obtain rfl : upperInclusive = upperInclusive' := by
    cases upperInclusive <;> cases upperInclusive' <;> simp_all
  rw [hopening]

theorem Attribute.eq_of_text_eq {a b : Attribute} (ha : a.Legible) (hb : b.Legible)
    (h : a.text = b.text) : a = b := by
  -- The first letters of the labels differ.
  have hlabel := congrArg (fun s : String => s.toList.head?) h
  cases a <;> cases b <;> simp [text] at hlabel <;>
    simp only [text, String.append_right_inj] at h
  case exportAs.exportAs => rw [h]
  case precision.precision => exact congrArg _ (eq_of_plain_write_eq ha hb h)
  case range.range => exact congrArg _ (Range.eq_of_text_eq ha hb h)
  case message.message => rfl
  case version.version => exact congrArg _ (Int.repr_inj.mp h)

/-! ### The outlines of parts -/

theorem shows_attribute : Shows Attribute.Legible Attribute.outline id := by
  intro a b ha hb
  simp only [Attribute.outline, Outline.leaf, Outline.node.injEq, String.append_right_inj,
    and_true, id]
  exact ⟨Attribute.eq_of_text_eq ha hb, congrArg _⟩

theorem map_attribute_outline_inj {l m : List Attribute} (hl : ∀ a ∈ l, a.Legible)
    (hm : ∀ a ∈ m, a.Legible) : l.map Attribute.outline = m.map Attribute.outline ↔ l = m := by
  simpa using shows_attribute.map l m hl hm

theorem ArraySize.eq_of_text_eq {m n : ArraySize} (h : m.text = n.text) : m = n := by
  have hword (n : Nat) : "∞" ≠ toString n := by
    intro heq
    have hmem : '∞' ∈ (toString n).toList := heq ▸ by decide
    exact absurd ((isDigits_toString n).2 '∞' hmem) (by decide)
  cases m with
  | unbounded =>
      cases n with
      | unbounded => rfl
      | fixed n => exact absurd h (hword n)
  | fixed m =>
      cases n with
      | unbounded => exact absurd h.symm (hword m)
      | fixed n => exact congrArg _ (Nat.repr_inj.mp h)

theorem FieldType.outline_eq_iff {t u : FieldType} : t.outline = u.outline ↔ t.bare = u.bare := by
  induction t generalizing u with
  | primitive p =>
      cases u with
      | primitive q =>
          simp only [outline, bare, Outline.leaf, Outline.node.injEq, String.append_right_inj,
            and_true, primitive.injEq]
          exact Primitive.name_inj
      | array element size => simp [outline, bare, Outline.leaf]
      | named reference =>
          have hlabel : "Type (generic): " ++ p.name ≠ "Type: " ++ reference.name := fun h => by
            simpa using congrArg String.toList h
          simp [outline, bare, Outline.leaf, hlabel]
  | array element size ih =>
      cases u with
      | primitive q => simp [outline, bare, Outline.leaf]
      | array element' size' =>
          have hsize : size.text = size'.text ↔ size = size' :=
            ⟨ArraySize.eq_of_text_eq, congrArg _⟩
          simp only [outline, bare, Outline.node.injEq, String.append_left_inj,
            String.append_right_inj, List.cons.injEq, and_true, array.injEq, ih, hsize]
          exact and_comm
      | named reference => simp [outline, bare, Outline.leaf]
  | named reference =>
      cases u with
      | primitive q =>
          have hlabel : "Type: " ++ reference.name ≠ "Type (generic): " ++ q.name := fun h => by
            simpa using congrArg String.toList h
          simp [outline, bare, Outline.leaf, hlabel]
      | array element size => simp [outline, bare, Outline.leaf]
      | named reference' => simp [outline, bare, Outline.leaf, Reference.unlinked]

theorem shows_field : Shows Field.Legible Field.outline Field.bare := by
  intro a b ha hb
  have hattributes := map_attribute_outline_inj ha.attributes hb.attributes
  simp only [Field.outline, Field.bare, Outline.node.injEq, String.append_right_inj,
    List.cons.injEq, Field.mk.injEq, FieldType.outline_eq_iff, hattributes, and_true]
  tauto

/-- What stands before braces is told from what stands between them. -/
theorem append_block_inj {u v inside inside' : List Outline} :
    u ++ Outline.block inside = v ++ Outline.block inside' ↔ u = v ∧ inside = inside' := by
  constructor
  · intro h
    obtain ⟨hbefore, hblock⟩ := List.append_inj' h rfl
    exact ⟨hbefore, by simpa [Outline.block] using hblock⟩
  · rintro ⟨rfl, rfl⟩
    rfl

theorem shows_struct : Shows Struct.Legible Struct.outline Struct.bare := by
  intro a b ha hb
  have hattributes := map_attribute_outline_inj ha.attributes hb.attributes
  have hfields := shows_field.map _ _ ha.fields hb.fields
  have hclass (x y : Bool) : toString x = toString y ↔ x = y := by cases x <;> cases y <;> decide
  have hlabel (s t : String) : "Extends: " ++ s ≠ "Class: " ++ t := fun h => by
    simpa using congrArg String.toList h
  simp only [Struct.outline, Struct.bare, Outline.node.injEq, String.append_right_inj,
    append_block_inj, Struct.mk.injEq, and_true]
  cases a.parentName <;> cases b.parentName <;>
    simp [Outline.leaf, hclass, hlabel, (hlabel _ _).symm, hattributes, hfields]
    <;> tauto

theorem shows_enumeration : Shows Enumeration.Legible Enumeration.outline Enumeration.bare := by
  intro a b ha hb
  have hattributes := map_attribute_outline_inj ha.attributes hb.attributes
  have henumeral : Shows (fun _ => True) Enumeral.outline Enumeral.bare := fun a b _ _ => by
    simp [Enumeral.outline, Enumeral.bare, Outline.leaf]
  have henumerals := henumeral.map a.enumerals b.enumerals (by simp) (by simp)
  simp only [Enumeration.outline, Enumeration.bare, Outline.node.injEq, String.append_right_inj,
    append_block_inj, Enumeration.mk.injEq, hattributes, henumerals, and_true]
  tauto

theorem shows_definition : Shows Definition.Legible Definition.outline Definition.bare := by
  intro a b ha hb
  have hlabel (s t : String) : "Struct: " ++ s ≠ "Enum: " ++ t := fun h => by
    simpa using congrArg String.toList h
  cases a with
  | struct s =>
      cases b with
      | struct t => simpa [Definition.outline, Definition.bare] using shows_struct s t ha hb
      | enumeration e =>
          simp [Definition.outline, Definition.bare, Struct.outline, Enumeration.outline, hlabel]
  | enumeration e =>
      cases b with
      | struct s =>
          simp [Definition.outline, Definition.bare, Struct.outline, Enumeration.outline,
            (hlabel _ _).symm]
      | enumeration e' =>
          simpa [Definition.outline, Definition.bare] using shows_enumeration e e' ha hb

theorem shows_import : Shows Import.Legible Import.outline Import.bare := by
  intro a b ha hb
  have hattributes := map_attribute_outline_inj ha.attributes hb.attributes
  simp only [Import.outline, Import.bare, Outline.node.injEq, String.append_right_inj,
    Import.mk.injEq, hattributes, and_true]

/-- The outline of an import, as its first letter tells. -/
def Outline.ofImport : Outline → Bool
  | .node line _ => line.toList.head? = some 'I'

theorem append_definitions_inj {a b : Package} :
    a.imports.map Import.outline ++ a.definitions.map Definition.outline =
        b.imports.map Import.outline ++ b.definitions.map Definition.outline ↔
      a.imports.map Import.outline = b.imports.map Import.outline ∧
        a.definitions.map Definition.outline = b.definitions.map Definition.outline := by
  have himports (imports : List Import) : ∀ o ∈ imports.map Import.outline, o.ofImport := by
    simp [Import.outline, Outline.ofImport]
  have hdefinitions (definitions : List Definition) :
      ∀ o ∈ (definitions.map Definition.outline).head?, o.ofImport = false := by
    intro o ho
    obtain ⟨d, -, rfl⟩ := List.mem_map.mp (List.mem_of_mem_head? ho)
    cases d <;> simp [Definition.outline, Struct.outline, Enumeration.outline, Outline.ofImport]
  constructor
  · exact append_inj_of_class (himports _) (himports _) (hdefinitions _) (hdefinitions _)
  · rintro ⟨h, h'⟩
    rw [h, h']

theorem shows_package : Shows Package.Legible Package.outline Package.bare := by
  intro a b ha hb
  have hattributes := map_attribute_outline_inj ha.attributes hb.attributes
  have himports := shows_import.map _ _ ha.imports hb.imports
  have hdefinitions := shows_definition.map _ _ ha.definitions hb.definitions
  simp only [Package.outline, Package.bare, Outline.node.injEq, String.append_right_inj,
    append_block_inj, append_definitions_inj, Package.mk.injEq, hattributes, himports,
    hdefinitions, and_true]
  tauto

/-! ### The names in a package -/

/-- The names that an attribute shows. -/
def Attribute.names : Attribute → List String
  | .exportAs name => [name]
  | .precision _ | .range _ | .message | .version _ => []

/-- The name that a type refers to, unless it is primitive. -/
def FieldType.names (type : FieldType) : List String :=
  (type.reference?.map Reference.name).toList

def Field.names (field : Field) : List String :=
  field.name :: (field.type.names ++ field.attributes.flatMap Attribute.names)

def Struct.names (s : Struct) : List String :=
  s.name :: (s.parentName.toList ++
    (s.attributes.flatMap Attribute.names ++ s.fields.flatMap Field.names))

def Enumeration.names (e : Enumeration) : List String :=
  e.name :: (e.attributes.flatMap Attribute.names ++ e.enumerals.map Enumeral.name)

def Definition.names : Definition → List String
  | .struct s => s.names
  | .enumeration e => e.names

def Import.names (imported : Import) : List String :=
  imported.name :: imported.attributes.flatMap Attribute.names

/-- The names of the package and of all that stands in it. -/
def Package.names (package : Package) : List String :=
  package.name :: (package.attributes.flatMap Attribute.names ++
    (package.imports.flatMap Import.names ++ package.definitions.flatMap Definition.names))

/-- The names in the elements of a list. -/
theorem oneLine_of_mem_flatMap {α : Type} {P : α → Prop} {names : α → List String}
    (h : ∀ a, P a → ∀ name ∈ names a, OneLine name) {l : List α} (hl : ∀ a ∈ l, P a) :
    ∀ name ∈ l.flatMap names, OneLine name := by
  intro name hname
  obtain ⟨a, ha, hname⟩ := List.mem_flatMap.mp hname
  exact h a (hl a ha) name hname

/-- The name of what is referred to, if anything is. -/
theorem oneLine_of_mem_reference {reference? : Option Reference}
    (h : ∀ reference ∈ reference?, OneLine reference.name) :
    ∀ name ∈ (reference?.map Reference.name).toList, OneLine name := by
  cases reference? with
  | none => simp
  | some reference => exact List.forall_mem_singleton.mpr (h reference rfl)

/-! Names that are legible fit on a line. -/

theorem Attribute.Legible.oneLine_of_mem_names (a : Attribute) (h : a.Legible) :
    ∀ name ∈ a.names, OneLine name := by
  cases a with
  | exportAs name => exact List.forall_mem_singleton.mpr h
  | precision _ | range _ | message | version _ => simp [names]

theorem oneLine_of_mem_attributes {l : List Attribute} (hl : ∀ a ∈ l, a.Legible) :
    ∀ name ∈ l.flatMap Attribute.names, OneLine name :=
  oneLine_of_mem_flatMap Attribute.Legible.oneLine_of_mem_names hl

theorem Field.Legible.oneLine_of_mem_names (field : Field) (h : field.Legible) :
    ∀ name ∈ field.names, OneLine name :=
  List.forall_mem_cons.mpr ⟨h.name, List.forall_mem_append.mpr
    ⟨oneLine_of_mem_reference h.type, oneLine_of_mem_attributes h.attributes⟩⟩

theorem Struct.Legible.oneLine_of_mem_names (s : Struct) (h : s.Legible) :
    ∀ name ∈ s.names, OneLine name :=
  List.forall_mem_cons.mpr ⟨h.name, List.forall_mem_append.mpr
    ⟨fun name hname => h.parent name (Option.mem_toList.mp hname), List.forall_mem_append.mpr
      ⟨oneLine_of_mem_attributes h.attributes,
        oneLine_of_mem_flatMap Field.Legible.oneLine_of_mem_names h.fields⟩⟩⟩

theorem Enumeration.Legible.oneLine_of_mem_names (e : Enumeration) (h : e.Legible) :
    ∀ name ∈ e.names, OneLine name :=
  List.forall_mem_cons.mpr ⟨h.name, List.forall_mem_append.mpr
    ⟨oneLine_of_mem_attributes h.attributes, List.forall_mem_map.mpr h.enumerals⟩⟩

theorem Definition.Legible.oneLine_of_mem_names (d : Definition) (h : d.Legible) :
    ∀ name ∈ d.names, OneLine name := by
  cases d with
  | struct s => exact Struct.Legible.oneLine_of_mem_names s h
  | enumeration e => exact Enumeration.Legible.oneLine_of_mem_names e h

theorem Import.Legible.oneLine_of_mem_names (imported : Import) (h : imported.Legible) :
    ∀ name ∈ imported.names, OneLine name :=
  List.forall_mem_cons.mpr ⟨h.name, oneLine_of_mem_attributes h.attributes⟩

theorem Package.Legible.oneLine_of_mem_names (package : Package) (h : package.Legible) :
    ∀ name ∈ package.names, OneLine name :=
  List.forall_mem_cons.mpr ⟨h.name, List.forall_mem_append.mpr
    ⟨oneLine_of_mem_attributes h.attributes, List.forall_mem_append.mpr
      ⟨oneLine_of_mem_flatMap Import.Legible.oneLine_of_mem_names h.imports,
        oneLine_of_mem_flatMap Definition.Legible.oneLine_of_mem_names h.definitions⟩⟩⟩

/-! ### The lines of an outline -/

theorem OneLine.append {s t : String} (hs : OneLine s) (ht : OneLine t) : OneLine (s ++ t) := by
  intro hmem
  rw [String.toList_append, List.mem_append] at hmem
  exact hmem.elim hs ht

theorem oneLine_plain_write (x : Float) : OneLine (Decimal.plain.write x) := by
  cases hx : x.isNaN with
  | false => exact not_mem_plain_write hx (by decide)
  | true =>
      rw [Decimal.plain.write_of_isNaN hx]
      decide

theorem oneLine_toString_nat (n : Nat) : OneLine (toString n) :=
  fun hmem => absurd ((isDigits_toString n).2 '\n' hmem) (by decide)

theorem oneLine_toString_int : (n : Int) → OneLine (toString n)
  | .ofNat n => oneLine_toString_nat n
  | .negSucc n => @OneLine.append "-" _ (by decide) (oneLine_toString_nat (n + 1))

theorem Range.oneLine_text (range : Range) : OneLine range.text := by
  refine .append (.append (.append (.append ?_ (oneLine_plain_write _)) (by decide))
    (oneLine_plain_write _)) ?_
  · split <;> decide
  · split <;> decide

theorem Attribute.oneLine_text {a : Attribute} (h : ∀ name ∈ a.names, OneLine name) :
    OneLine a.text := by
  cases a with
  | exportAs name => exact .append (by decide) (h name List.mem_cons_self)
  | precision step => exact .append (by decide) (oneLine_plain_write step)
  | range values => exact .append (by decide) values.oneLine_text
  | message => decide
  | version number => exact .append (by decide) (oneLine_toString_int number)

namespace Outline

/-- A line that starts with a label. -/
theorem Lined.labelled {label content : String} (hlabel : IsLine label ∧ label ≠ "")
    (hcontent : OneLine content) {below : List Outline} (hbelow : ∀ o ∈ below, o.Lined) :
    (Outline.node (label ++ content) below).Lined := by
  refine .node ⟨hlabel.1.oneLine.append hcontent, ?_⟩ hbelow
  have hne : label.toList ≠ [] := fun h => hlabel.2 (String.toList_inj.mp h)
  rw [String.toList_append, List.head?_append_of_ne_nil _ hne]
  exact hlabel.1.flush

theorem Lined.block {inside : List Outline} (h : ∀ o ∈ inside, o.Lined) :
    ∀ o ∈ block inside, o.Lined := by
  refine List.forall_mem_cons.mpr ⟨.node (by decide) h, List.forall_mem_singleton.mpr ?_⟩
  exact .node (by decide) (by simp)

/-- Outlines of things whose names fit on a line. -/
theorem Lined.map {α : Type} {names : α → List String} {outline : α → Outline}
    (h : ∀ a, (∀ name ∈ names a, OneLine name) → (outline a).Lined) {l : List α}
    (hl : ∀ name ∈ l.flatMap names, OneLine name) : ∀ o ∈ l.map outline, o.Lined :=
  List.forall_mem_map.mpr fun a ha => h a fun name hname =>
    hl name (List.mem_flatMap.mpr ⟨a, ha, hname⟩)

end Outline

open Outline (Lined)

theorem Attribute.lined_outline (a : Attribute) (h : ∀ name ∈ a.names, OneLine name) :
    a.outline.Lined :=
  .labelled (by decide) (Attribute.oneLine_text h) (by simp)

theorem FieldType.lined_outline (type : FieldType) (h : ∀ name ∈ type.names, OneLine name) :
    type.outline.Lined := by
  induction type with
  | primitive p => exact .labelled (by decide) (by cases p <;> decide) (by simp)
  | array element size ih =>
      have hsize : OneLine size.text := by
        cases size with
        | unbounded => decide
        | fixed n => exact oneLine_toString_nat n
      rw [outline, String.append_assoc]
      exact .labelled (by decide) (hsize.append (by decide))
        (List.forall_mem_singleton.mpr (ih h))
  | named reference => exact .labelled (by decide) (h _ List.mem_cons_self) (by simp)

theorem Field.lined_outline (field : Field) (h : ∀ name ∈ field.names, OneLine name) :
    field.outline.Lined := by
  obtain ⟨hname, hmore⟩ := List.forall_mem_cons.mp h
  obtain ⟨htype, hattributes⟩ := List.forall_mem_append.mp hmore
  exact .labelled (by decide) hname (List.forall_mem_cons.mpr
    ⟨field.type.lined_outline htype, .map Attribute.lined_outline hattributes⟩)

theorem Struct.lined_outline (s : Struct) (h : ∀ name ∈ s.names, OneLine name) :
    s.outline.Lined := by
  obtain ⟨hname, hmore⟩ := List.forall_mem_cons.mp h
  obtain ⟨hparent, hmore⟩ := List.forall_mem_append.mp hmore
  obtain ⟨hattributes, hfields⟩ := List.forall_mem_append.mp hmore
  refine .labelled (by decide) hname (List.forall_mem_append.mpr
    ⟨List.forall_mem_append.mpr ⟨?_, List.forall_mem_cons.mpr ⟨?_, ?_⟩⟩, ?_⟩)
  · cases hextends : s.parentName with
    | none => simp
    | some name =>
        rw [hextends] at hparent
        exact List.forall_mem_singleton.mpr
          (.labelled (by decide) (hparent _ List.mem_cons_self) (by simp))
  · exact .labelled (by decide) (by cases s.isClass <;> decide) (by simp)
  · exact .map Attribute.lined_outline hattributes
  · exact .block (.map Field.lined_outline hfields)

theorem Enumeral.lined_outline {enumeral : Enumeral} (h : OneLine enumeral.name) :
    enumeral.outline.Lined :=
  .labelled (by decide) h (by simp)

theorem Enumeration.lined_outline (e : Enumeration) (h : ∀ name ∈ e.names, OneLine name) :
    e.outline.Lined := by
  obtain ⟨hname, hmore⟩ := List.forall_mem_cons.mp h
  obtain ⟨hattributes, henumerals⟩ := List.forall_mem_append.mp hmore
  exact .labelled (by decide) hname (List.forall_mem_append.mpr
    ⟨.map Attribute.lined_outline hattributes, .block (List.forall_mem_map.mpr fun _ hmem =>
      Enumeral.lined_outline (List.forall_mem_map.mp henumerals _ hmem))⟩)

theorem Definition.lined_outline (d : Definition) (h : ∀ name ∈ d.names, OneLine name) :
    d.outline.Lined := by
  cases d with
  | struct s => exact s.lined_outline h
  | enumeration e => exact e.lined_outline h

theorem Import.lined_outline (imported : Import) (h : ∀ name ∈ imported.names, OneLine name) :
    imported.outline.Lined := by
  obtain ⟨hname, hattributes⟩ := List.forall_mem_cons.mp h
  exact .labelled (by decide) hname (.map Attribute.lined_outline hattributes)

/-- Between the braces of a package stand lines if its names fit on a line. -/
theorem Package.lined_inside {package : Package}
    (himports : ∀ name ∈ package.imports.flatMap Import.names, OneLine name)
    (hdefinitions : ∀ name ∈ package.definitions.flatMap Definition.names, OneLine name) :
    ∀ o ∈ package.imports.map Import.outline ++ package.definitions.map Definition.outline,
      o.Lined :=
  List.forall_mem_append.mpr
    ⟨.map Import.lined_outline himports, .map Definition.lined_outline hdefinitions⟩

theorem Package.lined_outline_of_names {package : Package}
    (h : ∀ name ∈ package.names, OneLine name) : package.outline.Lined := by
  obtain ⟨hname, hmore⟩ := List.forall_mem_cons.mp h
  obtain ⟨hattributes, hinside⟩ := List.forall_mem_append.mp hmore
  obtain ⟨himports, hdefinitions⟩ := List.forall_mem_append.mp hinside
  exact .labelled (by decide) hname (List.forall_mem_append.mpr
    ⟨.map Attribute.lined_outline hattributes, .block (lined_inside himports hdefinitions)⟩)

theorem Package.lined_outline {package : Package} (h : package.Legible) : package.outline.Lined :=
  lined_outline_of_names (Package.Legible.oneLine_of_mem_names package h)

/-- What is made of every element of a list. -/
theorem lined_map {α : Type} {P : α → Prop} {f : α → Outline} (h : ∀ a, P a → (f a).Lined)
    {l : List α} (hl : ∀ a ∈ l, P a) : ∀ o ∈ l.map f, o.Lined :=
  List.forall_mem_map.mpr fun a ha => h a (hl a ha)

/-! ### The text -/

/-- The outlines of packages from sources have the same text exactly if the packages agree but for
places and links. -/
theorem Package.outlineText_eq_iff {packages others : List Package}
    (hpackages : ∀ package ∈ packages, package.FromSources)
    (hothers : ∀ package ∈ others, package.FromSources) :
    outlineText packages = outlineText others ↔ packages.map bare = others.map bare := by
  have hlegible := fun package hmem => (hpackages package hmem).legible
  have hlegible' := fun package hmem => (hothers package hmem).legible
  rw [← shows_package.map packages others hlegible hlegible']
  exact ⟨Outline.eq_of_renderAll_eq (lined_map (fun _ => lined_outline) hlegible)
    (lined_map (fun _ => lined_outline) hlegible'), congrArg (Outline.renderAll 0)⟩

/-- A class with a parent and an array of its own instances. -/
def Package.chained : Package :=
  ⟨"p", [], [.struct ⟨"S", true, none, none, [], [], ⟨12, 1, 13, ""⟩⟩,
    .struct ⟨"T", true, some "S", none,
      [⟨.array (.named (.unlinked "T")) (.fixed 2), "s", [], ⟨42, 1, 43, ""⟩⟩], [],
      ⟨23, 1, 24, ""⟩⟩], [], ⟨0, 1, 1, ""⟩⟩

/-- A package that is read from a source has the outline that it has when it is linked. -/
theorem Package.outlineText_eq_iff_chained : ∃ table linked,
    parse "package \"p\" class S \x7b\x7d class T : S \x7b T[2] s \x7d" "" = .ok chained ∧
      NameTable.build [chained] = .ok table ∧ link [chained] table = .ok linked ∧
      outlineText [chained] = outlineText linked := by
  have hparse : parse "package \"p\" class S \x7b\x7d class T : S \x7b T[2] s \x7d" "" =
      .ok chained := by with_unfolding_all rfl
  have hlink : link [chained] (.listing [chained]) =
      .ok [chained.resolved (.listing [chained])] := by cbv
  have hchained : ∀ package ∈ [chained], package.FromSources :=
    List.forall_mem_singleton.mpr (.parsed hparse)
  exact ⟨.listing [chained], _, hparse, by cbv, hlink,
    (outlineText_eq_iff hchained fun _ => .linked hchained hlink).mpr rfl⟩

end SchemaLang
