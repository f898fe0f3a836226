import SchemaLang.Traversal

/-!
# A printer of packages

The printer walks over a package and writes a line for each node as it comes to it.  It keeps the
text that is written so far and the level at which the next line stands; what stands below a line is
printed one level deeper, and the level is put back behind it.
-/

namespace SchemaLang

/-- The text written so far, and the level of the next line. -/
structure Printer where
  out : String
  level : Nat
deriving DecidableEq, Repr

/-- The text could not be written. -/
structure WriteError where
deriving DecidableEq, Repr

/-- A step of printing.  What is written before a step fails stays written. -/
abbrev Printing (α : Type) : Type :=
  EStateM WriteError Printer α

namespace Printer

def start : Printer := ⟨"", 0⟩

def write (text : String) : Printing Unit :=
  modify fun printer => { printer with out := printer.out ++ text }

/-- Four blanks for each level. -/
def indent : Nat → Printing Unit
  | 0 => pure ()
  | level + 1 => do
      write "    "
      indent level

/-- One line at the level that is reached. -/
def line (text : String) : Printing Unit := do
  indent (← get).level
  write text
  write "\n"

/-- Prints one level deeper.  The level is put back in any case. -/
def nested (below : Printing Unit) : Printing Unit := fun printer =>
  match below { printer with level := printer.level + 1 } with
  | .ok () after => .ok () { after with level := after.level - 1 }
  | .error e after => .error e { after with level := after.level - 1 }

/-- Braces on lines of their own around what is printed one level deeper. -/
def block (inside : Printing Unit) : Printing Unit := do
  line "\x7b"
  nested inside
  line "\x7d"

end Printer

open Printer

def Attribute.print (a : Attribute) : Printing Unit :=
  line ("Attribute: " ++ a.text)

def FieldType.print : FieldType → Printing Unit
  | .primitive p => line ("Type (generic): " ++ p.name)
  | .array element size => do
      line ("Array of size " ++ size.text ++ ". Child type:")
      nested element.print
  | .named reference => line ("Type: " ++ reference.name)

/-- The type of a field stands in front of its attributes. -/
def Field.print (field : Field) : Printing Unit := do
  line ("Variable: " ++ field.name)
  nested do
    field.type.print
    field.attributes.forM Attribute.print

def Struct.printBody (struct : Struct) : Printing Unit :=
  block (struct.fields.forM Field.print)

def Struct.print (struct : Struct) : Printing Unit := do
  line ("Struct: " ++ struct.name)
  nested do
    if let some name := struct.parentName then
      line ("Extends: " ++ name)
    line ("Class: " ++ toString struct.isClass)
    struct.attributes.forM Attribute.print
    struct.printBody

def Enumeral.print (enumeral : Enumeral) : Printing Unit :=
  line ("Enumeral: " ++ enumeral.name)

def Enumeration.printBody (enumeration : Enumeration) : Printing Unit :=
  block (enumeration.enumerals.forM Enumeral.print)

def Enumeration.print (enumeration : Enumeration) : Printing Unit := do
  line ("Enum: " ++ enumeration.name)
  nested do
    enumeration.attributes.forM Attribute.print
    enumeration.printBody

def Definition.print : Definition → Printing Unit
  | .struct s => s.print
  | .enumeration e => e.print

def Import.print (imported : Import) : Printing Unit := do
  line ("Import: " ++ imported.name)
  nested (imported.attributes.forM Attribute.print)

def Package.printBody (package : Package) : Printing Unit :=
  block do
    package.imports.forM Import.print
    package.definitions.forM Definition.print

def Package.print (package : Package) : Printing Unit := do
  line ("Package: " ++ package.name)
  nested do
    package.attributes.forM Attribute.print
    package.printBody

/-- What the printer does at a node, the nodes below it included. -/
def Node.print : Node → Printing Unit
  | .package p => p.print
  | .packageBody p => p.printBody
  | .imported i => i.print
  | .struct s => s.print
  | .structBody s => s.printBody
  | .enumeration e => e.print
  | .enumerationBody e => e.printBody
  | .field f => f.print
  | .fieldType t => t.print
  | .enumeral e => e.print
  | .attribute a => a.print

namespace Printer

/-- The printer goes below every node by itself, so a walk does not. -/
def visit : Visitor Printing := fun node => do
  node.print
  return false

/-- What a step leaves of a printer, whether or not it fails. -/
def leave (step : Printing Unit) (printer : Printer) : Printer :=
  match step printer with
  | .ok () after => after
  | .error _ after => after

/-- The text of all packages, one after another. -/
def print (packages : List Package) : String :=
  (packages.foldl (fun printer package => leave (package.walk visit) printer) start).out

end Printer

end SchemaLang
