import SchemaLang.Package

/-!
# Merging fragments

A package may be spread over several sources.  Merging gathers the fragments of each package where
the first of them stands; nothing is renamed or dropped.
-/

namespace SchemaLang.Package

/-- A fragment followed by another fragment of the same package. -/
def append (package fragment : Package) : Package :=
  { package with
    imports := package.imports ++ fragment.imports
    definitions := package.definitions ++ fragment.definitions
    attributes := package.attributes ++ fragment.attributes }

/-- Adds a fragment to the package of its name, or as a new package at the end. -/
def absorb : List Package → Package → List Package
  | [], fragment => [fragment]
  | package :: packages, fragment =>
      if package.name = fragment.name then package.append fragment :: packages
      else package :: absorb packages fragment

/-- One package for each name, in the order in which the names first occur. -/
def merge (fragments : List Package) : List Package :=
  fragments.foldl absorb []

end SchemaLang.Package
