/-!
# Paths

A path is a text of parts with slashes between them.  Empty parts and `.` lead nowhere but ask for
a directory, `..` leads to the directory above.
-/

namespace SchemaLang

/-- The parts of a path, and whether it starts at the root. -/
structure Path where
  absolute : Bool
  parts : List String
deriving DecidableEq, Repr

namespace Path

/-- The path that a text writes. -/
def ofText (text : String) : Path :=
  ⟨text.toList.head? = some '/', (text.toList.splitOn '/').map String.ofList⟩

/-- The text of a path with one more part behind it.  A slash at the end is not doubled, and an
empty path adds none. -/
def joinText (text part : String) : String :=
  if text.isEmpty || text.toList.getLast? = some '/' then text ++ part else text ++ "/" ++ part

/-- The path of an empty text. -/
def isEmpty (path : Path) : Bool :=
  !path.absolute && path.parts.all String.isEmpty

/-- The number of bytes of the parts and of the slashes between them. -/
def size (path : Path) : Nat :=
  (String.intercalate "/" path.parts).utf8ByteSize

/-- Whether there is a NUL character in a path. -/
def hasNul (path : Path) : Bool :=
  path.parts.any fun part => part.toList.contains '\x00'

/-- The parts that lead somewhere, and a leading `.` of a relative path. -/
def normalParts (path : Path) : List String :=
  match path.absolute, path.parts.filter fun part => !part.isEmpty with
  | false, "." :: parts => "." :: parts.filter fun part => part ≠ "."
  | _, parts => parts.filter fun part => part ≠ "."

/-- The path without its last part, if there is one to take off. -/
def parent? (path : Path) : Option Path :=
  if path.normalParts = [] then none else some ⟨path.absolute, path.normalParts.dropLast⟩

theorem normalParts_length_le (path : Path) : path.normalParts.length ≤ path.parts.length := by
  have outer := List.length_filter_le (fun part : String => !part.isEmpty) path.parts
  unfold normalParts
  split
  · rename_i parts _ h
    have inner := List.length_filter_le (fun part : String => decide (part ≠ ".")) parts
    have := congrArg List.length h
    simp only [List.length_cons] at this ⊢
    omega
  · exact Nat.le_trans (List.length_filter_le _ _) outer

/-- Taking off a part leaves fewer of them. -/
theorem parent?_length_lt {path parent : Path} (h : path.parent? = some parent) :
    parent.normalParts.length < path.normalParts.length := by
  unfold parent? at h
  split at h
  · cases h
  · rename_i hne
    cases h
    have := normalParts_length_le ⟨path.absolute, path.normalParts.dropLast⟩
    have := List.length_pos_iff.mpr hne
    simp only [List.length_dropLast] at *
    omega

end Path

end SchemaLang
