import SchemaLang.Package

/-!
# Walking over a package

A walk visits the nodes of a tree from the top down, each node before the nodes below it and those
in the order they were written.  The visitor says for each node whether the walk goes on below it,
and any effect of its own, such as an error, ends the walk where the effect's monad says so.
-/

namespace SchemaLang

/-- The nodes that a walk visits.  What a package, a struct or an enum holds is a node of its own
below it. -/
inductive Node where
  | package (package : Package)
  | packageBody (package : Package)
  | imported (imported : Import)
  | struct (struct : Struct)
  | structBody (struct : Struct)
  | enumeration (enumeration : Enumeration)
  | enumerationBody (enumeration : Enumeration)
  | field (field : Field)
  | fieldType (type : FieldType)
  | enumeral (enumeral : Enumeral)
  | attribute (attached : Attribute)
deriving Repr

/-- What is done at a node; the answer says whether the walk goes on below it. -/
abbrev Visitor (m : Type → Type) : Type :=
  Node → m Bool

section

variable {m : Type → Type} [Monad m]

/-- Visits a node, and then what stands below it if the visitor says so. -/
def Visitor.enter (visit : Visitor m) (node : Node) (below : m Unit) : m Unit := do
  if ← visit node then below

def Attribute.walk (visit : Visitor m) (a : Attribute) : m Unit :=
  visit.enter (.attribute a) (pure ())

/-- Below an array stands the type of its elements. -/
def FieldType.walk (visit : Visitor m) : FieldType → m Unit
  | .array element size => visit.enter (.fieldType (.array element size)) (element.walk visit)
  | .primitive p => visit.enter (.fieldType (.primitive p)) (pure ())
  | .named reference => visit.enter (.fieldType (.named reference)) (pure ())

def Field.walk (visit : Visitor m) (field : Field) : m Unit :=
  visit.enter (.field field) do
    field.attributes.forM (Attribute.walk visit)
    field.type.walk visit

def Struct.walkBody (visit : Visitor m) (struct : Struct) : m Unit :=
  visit.enter (.structBody struct) (struct.fields.forM (Field.walk visit))

def Struct.walk (visit : Visitor m) (struct : Struct) : m Unit :=
  visit.enter (.struct struct) do
    struct.attributes.forM (Attribute.walk visit)
    struct.walkBody visit

def Enumeral.walk (visit : Visitor m) (enumeral : Enumeral) : m Unit :=
  visit.enter (.enumeral enumeral) (pure ())

def Enumeration.walkBody (visit : Visitor m) (enumeration : Enumeration) : m Unit :=
  visit.enter (.enumerationBody enumeration) (enumeration.enumerals.forM (Enumeral.walk visit))

def Enumeration.walk (visit : Visitor m) (enumeration : Enumeration) : m Unit :=
  visit.enter (.enumeration enumeration) do
    enumeration.attributes.forM (Attribute.walk visit)
    enumeration.walkBody visit

def Definition.walk (visit : Visitor m) : Definition → m Unit
  | .struct s => s.walk visit
  | .enumeration e => e.walk visit

def Import.walk (visit : Visitor m) (imported : Import) : m Unit :=
  visit.enter (.imported imported) (imported.attributes.forM (Attribute.walk visit))

def Package.walkBody (visit : Visitor m) (package : Package) : m Unit :=
  visit.enter (.packageBody package) do
    package.imports.forM (Import.walk visit)
    package.definitions.forM (Definition.walk visit)

def Package.walk (visit : Visitor m) (package : Package) : m Unit :=
  visit.enter (.package package) do
    package.attributes.forM (Attribute.walk visit)
    package.walkBody visit

/-- A visitor that does nothing at attributes passes over them. -/
theorem Attribute.forM_walk_eq_pure [LawfulMonad m] {visit : Visitor m}
    (h : ∀ a, visit (.attribute a) = pure true) (attributes : List Attribute) :
    attributes.forM (Attribute.walk visit) = pure () := by
  induction attributes with
  | nil => rfl
  | cons a attributes ih =>
      rw [List.forM, ih, Attribute.walk, Visitor.enter, h, pure_bind, if_pos rfl, pure_bind]

end

end SchemaLang
