import SchemaLang.Package

/-!
# Outlines

An outline is a tree of lines.  `Outline.render` writes it with four blanks for each level, and
`Package.outline` is the outline that shows everything of a package but places and links.
-/

namespace SchemaLang

/-- A line and the lines one level below it. -/
inductive Outline where
  | node (line : String) (below : List Outline)
deriving Repr

namespace Outline

/-- A line with nothing below it. -/
def leaf (line : String) : Outline := .node line []

/-- Braces on lines of their own around lines one level deeper. -/
def block (inside : List Outline) : List Outline :=
  [.node "\x7b" inside, leaf "\x7d"]

/-- One line at the given level. -/
def indented (level : Nat) (line : String) : String :=
  String.ofList (List.replicate (4 * level) ' ') ++ line ++ "\n"

mutual

/-- The text of an outline whose first line stands at the given level. -/
def render (level : Nat) : Outline → String
  | .node line below => indented level line ++ renderAll (level + 1) below

/-- The text of several outlines, one after another. -/
def renderAll (level : Nat) : List Outline → String
  | [] => ""
  | o :: os => render level o ++ renderAll level os

end

end Outline

def Attribute.outline (a : Attribute) : Outline :=
  .leaf ("Attribute: " ++ a.text)

def FieldType.outline : FieldType → Outline
  | .primitive p => .leaf ("Type (generic): " ++ p.name)
  | .array element size =>
      .node ("Array of size " ++ size.text ++ ". Child type:") [element.outline]
  | .named reference => .leaf ("Type: " ++ reference.name)

def Field.outline (field : Field) : Outline :=
  .node ("Variable: " ++ field.name)
    (field.type.outline :: field.attributes.map Attribute.outline)

def Struct.outline (struct : Struct) : Outline :=
  let parent := match struct.parentName with
    | none => []
    | some name => [Outline.leaf ("Extends: " ++ name)]
  .node ("Struct: " ++ struct.name)
    (parent ++ Outline.leaf ("Class: " ++ toString struct.isClass) ::
      struct.attributes.map Attribute.outline ++ Outline.block (struct.fields.map Field.outline))

def Enumeral.outline (enumeral : Enumeral) : Outline :=
  .leaf ("Enumeral: " ++ enumeral.name)

def Enumeration.outline (enumeration : Enumeration) : Outline :=
  .node ("Enum: " ++ enumeration.name)
    (enumeration.attributes.map Attribute.outline ++
      Outline.block (enumeration.enumerals.map Enumeral.outline))

def Definition.outline : Definition → Outline
  | .struct s => s.outline
  | .enumeration e => e.outline

def Import.outline (imported : Import) : Outline :=
  .node ("Import: " ++ imported.name) (imported.attributes.map Attribute.outline)

def Package.outline (package : Package) : Outline :=
  .node ("Package: " ++ package.name)
    (package.attributes.map Attribute.outline ++
      Outline.block (package.imports.map Import.outline ++
        package.definitions.map Definition.outline))

/-- The outlines of all packages, one after another. -/
def Package.outlineText (packages : List Package) : String :=
  Outline.renderAll 0 (packages.map Package.outline)

end SchemaLang
