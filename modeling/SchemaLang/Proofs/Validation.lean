import SchemaLang.Validation
import SchemaLang.Proofs.LinkTargets

/-!
# What validation demands

Validation looks at attributes and at names, and knows neither addresses nor lines of parents.
Whatever can be linked passes it, so that it never turns down what linking let through.
-/

namespace SchemaLang

namespace Survey

/-- The names a field uses. -/
def fieldUses (package : Package) (field : Field) : List Mention :=
  field.type.reference?.toList.map fun reference =>
    ⟨reference.qualifiedIn package.name, field.location⟩

/-- The names a definition uses, that of the parent first. -/
def uses (package : Package) : Definition → List Mention
  | .struct s => s.parent.toList.map (fun reference =>
      ⟨reference.qualifiedIn package.name, s.location⟩) ++ s.fields.flatMap (fieldUses package)
  | .enumeration _ => []

/-- The names a package declares. -/
def declarations (package : Package) : List Mention :=
  package.definitions.map fun d => ⟨package.qualify d.name, d.location⟩

/-- All names that a package declares and uses. -/
def complete (package : Package) : Survey :=
  ⟨declarations package, package.definitions.flatMap (uses package)⟩

/-- Surveys are put together stretch by stretch. -/
theorem foldl_append (surveys : List Survey) (start : Survey) :
    surveys.foldl append start =
      ⟨start.declared ++ surveys.flatMap declared, start.used ++ surveys.flatMap used⟩ := by
  induction surveys generalizing start with
  | nil => simp
  | cons survey surveys ih => rw [List.foldl_cons, ih]; simp [append]

theorem succeedsIff_ofField (package : Package) (field : Field) :
    SucceedsIff (ofField package field) (Attribute.AllApply field.attributes (.field field.type))
      ⟨[], fieldUses package field⟩ := by
  refine ((succeedsIff_checkAttributes field.attributes (.field field.type)
    field.location).map fun _ => _).congr Iff.rfl fun _ => ?_
  rw [fieldUses]
  cases field.type.reference? <;> rfl

theorem succeedsIff_ofDefinition (package : Package) (d : Definition) :
    SucceedsIff (ofDefinition package d) d.AttributesApply
      ⟨[⟨package.qualify d.name, d.location⟩], uses package d⟩ := by
  cases d with
  | enumeration e =>
      exact (succeedsIff_checkAttributes e.attributes .enumeration e.location).map fun _ => _
  | struct s =>
      have hattributes := succeedsIff_checkAttributes s.attributes .struct s.location
      have hfields := SucceedsIff.mapM (l := s.fields) fun field _ =>
        succeedsIff_ofField package field
      refine (hattributes.bind fun _ => hfields.map fun _ => _).congr Iff.rfl fun _ => ?_
      rw [foldl_append, uses, ofDeclaration, append]
      simp only [List.flatMap_map]
      cases s.parent <;> simp [ofReference]

theorem succeedsIff_ofPackage (package : Package) :
    SucceedsIff (ofPackage package) package.AttributesApply (complete package) := by
  have hattributes := succeedsIff_checkAttributes package.attributes .package package.location
  have himports := SucceedsIff.forM (l := package.imports) fun imported _ =>
    succeedsIff_checkAttributes imported.attributes .imported imported.location
  have hdefinitions := SucceedsIff.mapM (l := package.definitions) fun d _ =>
    succeedsIff_ofDefinition package d
  refine (hattributes.bind fun _ => himports.bind fun _ => hdefinitions.map fun _ => _).congr
    Iff.rfl fun _ => ?_
  rw [foldl_append, complete, declarations, List.flatMap_map, List.flatMap_map,
    List.map_eq_flatMap]
  rfl

/-- A survey of all packages is made if all attributes apply, and it gathers all names. -/
theorem succeedsIff_ofPackages (packages : List Package) :
    SucceedsIff (ofPackages packages) (∀ package ∈ packages, package.AttributesApply)
      ⟨packages.flatMap declarations, packages.flatMap fun package =>
        package.definitions.flatMap (uses package)⟩ := by
  refine ((SucceedsIff.mapM fun package _ => succeedsIff_ofPackage package).map
    fun _ => _).congr Iff.rfl fun _ => ?_
  rw [foldl_append, List.flatMap_map, List.flatMap_map]
  rfl

theorem map_name_declarations (packages : List Package) :
    (packages.flatMap declarations).map Mention.name = Package.typeNames packages := by
  rw [List.map_flatMap]
  simp only [declarations, List.map_map]
  rfl

/-- What a definition uses are its references, each under the name it stands for. -/
theorem map_name_uses (package : Package) (d : Definition) :
    (uses package d).map Mention.name =
      d.references.map fun reference => reference.qualifiedIn package.name := by
  cases d with
  | enumeration e => rfl
  | struct s =>
      rw [uses, Definition.references, List.map_append, List.map_append, List.map_map,
        List.map_flatMap, List.map_filterMap, List.filterMap_eq_flatMap_toList]
      congr 1
      refine List.flatMap_congr fun field _ => ?_
      rw [fieldUses]
      cases field.type.reference? <;> rfl

/-- No name is repeated if the names are distinct. -/
theorem firstRepeated?_eq_none_iff {mentions : List Mention} :
    firstRepeated? mentions = none ↔ (mentions.map Mention.name).Nodup := by
  induction mentions with
  | nil => simp [firstRepeated?]
  | cons m ms ih =>
      have hfind : (ms.find? fun later => later.name = m.name) = none ↔
          m.name ∉ ms.map Mention.name := by
        simp [List.find?_eq_none]
      -- A name is repeated at its first mention or further behind.
      rw [firstRepeated?, List.map_cons, List.nodup_cons, ← hfind, ← ih]
      cases ms.find? fun later => later.name = m.name <;> simp

/-- No name is unknown if all used names are declared. -/
theorem firstUnknown?_eq_none_iff {survey : Survey} :
    survey.firstUnknown? = none ↔
      ∀ name ∈ survey.used.map Mention.name, name ∈ survey.declared.map Mention.name := by
  rw [firstUnknown?, List.find?_eq_none, List.forall_mem_map]
  simp

end Survey

namespace Package

/-- Attributes apply, names are distinct and the names that are used are declared. -/
structure Valid (packages : List Package) : Prop where
  attributes : ∀ package ∈ packages, package.AttributesApply
  typeNames : (typeNames packages).Nodup
  references : ∀ package ∈ packages, ∀ d ∈ package.definitions, ∀ reference ∈ d.references,
    ∃ name, reference.StandsFor package.name name ∧ name ∈ Package.typeNames packages

/-- The last package is named if no package declares anything. -/
def warnings (packages : List Package) : List Warning :=
  if typeNames packages = [] then
    [.nothingDeclared ((packages.getLast?.map Package.name).getD "")]
  else []

variable {packages : List Package}

/-- Where nothing is declared, nothing is used. -/
theorem definitions_eq_nil (h : typeNames packages = []) {package : Package}
    (hpackage : package ∈ packages) : package.definitions = [] := by
  have hnames := List.flatMap_eq_nil_iff.mp h package hpackage
  exact List.map_eq_nil_iff.mp hnames

/-- All used names are declared: the same by references. -/
theorem forall_uses_iff {P : String → Prop} :
    (∀ name ∈ (packages.flatMap fun package =>
        package.definitions.flatMap (Survey.uses package)).map Mention.name, P name) ↔
      ∀ package ∈ packages, ∀ d ∈ package.definitions, ∀ reference ∈ d.references,
        P (reference.qualifiedIn package.name) := by
  simp only [List.map_flatMap, Survey.map_name_uses, List.forall_mem_flatMap, List.forall_mem_map]

/-- Validation succeeds exactly for valid packages, with a warning only if nothing is declared. -/
theorem succeedsIff_validate (packages : List Package) :
    SucceedsIff (validate packages) (Valid packages) (warnings packages) := by
  have hvalid : ((∀ package ∈ packages, package.AttributesApply) ∧ (typeNames packages).Nodup ∧
      ∀ package ∈ packages, ∀ d ∈ package.definitions, ∀ reference ∈ d.references,
        reference.qualifiedIn package.name ∈ typeNames packages) ↔ Valid packages := by
    simp only [← Reference.exists_standsFor_iff (P := (· ∈ typeNames packages))]
    exact ⟨fun h => ⟨h.1, h.2.1, h.2.2⟩, fun h => ⟨h.attributes, h.typeNames, h.references⟩⟩
  refine ((Survey.succeedsIff_ofPackages packages).bind fun _ => ?_).congr hvalid fun _ => rfl
  rw [← Survey.map_name_declarations, ← forall_uses_iff]
  dsimp only
  by_cases hempty : packages.flatMap Survey.declarations = []
  · -- What is used stands in a definition, so that here nothing is used.
    have hnames : typeNames packages = [] := by
      rw [← Survey.map_name_declarations, hempty, List.map_nil]
    have hused : (packages.flatMap fun package =>
        package.definitions.flatMap (Survey.uses package)) = [] :=
      List.flatMap_eq_nil_iff.mpr fun package hpackage => by
        rw [definitions_eq_nil hnames hpackage, List.flatMap_nil]
    rw [if_pos (List.isEmpty_iff.mpr hempty), warnings, if_pos hnames]
    exact (SucceedsIff.pure _).congr (by simp [hempty, hused]) fun _ => rfl
  · have hnames : typeNames packages ≠ [] := by
      rw [← Survey.map_name_declarations]
      exact fun h => hempty (List.map_eq_nil_iff.mp h)
    rw [if_neg (mt List.isEmpty_iff.mp hempty), warnings, if_neg hnames,
      ← Survey.firstRepeated?_eq_none_iff, ← @Survey.firstUnknown?_eq_none_iff ⟨_, _⟩]
    cases Survey.firstRepeated? (packages.flatMap Survey.declarations) with
    | some m => exact SucceedsIff.error (by simp)
    | none =>
        dsimp only
        cases Survey.firstUnknown? _ with
        | some m => exact SucceedsIff.error (by simp)
        | none => exact (SucceedsIff.pure _).congr (by simp) fun _ => rfl

end Package

/-! ## Linked packages -/

/-- Attributes look at primitive types only, which no link changes. -/
theorem Attribute.applicable_linkTo (a : Attribute) (type : FieldType) (id : DefinitionId) :
    a.applicable (.field (type.linkTo id)) = a.applicable (.field type) := by
  cases a <;> cases type <;> rfl

variable {table : NameTable} {name : String} {packages : List Package}

theorem Field.allApply_resolved {field : Field} :
    Attribute.AllApply (field.resolved table name).attributes
        (.field (field.resolved table name).type) ↔
      Attribute.AllApply field.attributes (.field field.type) := by
  rw [resolved]
  cases field.meaning? table name with
  | none => rfl
  | some id =>
      refine forall₂_congr fun a _ => ?_
      rw [← a.applicable_linkTo field.type id]
      rfl

theorem Definition.attributesApply_resolved {d : Definition} :
    (d.resolved table name).AttributesApply ↔ d.AttributesApply := by
  cases d with
  | enumeration e => rfl
  | struct s =>
      refine and_congr Iff.rfl ?_
      show (∀ field ∈ s.fields.map (Field.resolved table name), _) ↔ _
      rw [List.forall_mem_map]
      exact forall₂_congr fun field _ => Field.allApply_resolved

namespace Package

theorem attributesApply_resolved {package : Package} :
    (package.resolved table).AttributesApply ↔ package.AttributesApply := by
  refine and_congr Iff.rfl (and_congr Iff.rfl ?_)
  rw [resolved, List.forall_mem_map]
  exact forall₂_congr fun d _ => Definition.attributesApply_resolved

/-- Acceptable packages are valid when they are linked. -/
theorem Acceptable.valid_resolved (h : Acceptable packages) (table : NameTable) :
    Valid (packages.map (resolved table)) := by
  constructor
  case attributes =>
    rw [List.forall_mem_map]
    exact fun package hpackage => attributesApply_resolved.mpr (h.attributes package hpackage)
  case typeNames =>
    rw [typeNames_resolved]
    exact h.typeNames
  case references =>
    rw [typeNames_resolved, List.forall_mem_map]
    intro package hpackage
    rw [resolved, List.forall_mem_map]
    intro d hd
    rw [Definition.references_resolved, List.forall_mem_map]
    intro reference hreference
    rw [Reference.exists_standsFor_iff, Reference.qualifiedIn_resolved]
    exact h.qualifiedIn_mem package hpackage d hd reference hreference

theorem warnings_resolved (table : NameTable) (packages : List Package) :
    warnings (packages.map (resolved table)) = warnings packages := by
  rw [warnings, warnings, typeNames_resolved, List.getLast?_map, Option.map_map]
  rfl

end Package

end SchemaLang
