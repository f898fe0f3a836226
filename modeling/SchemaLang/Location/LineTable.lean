import SchemaLang.Location

/-!
# Line tables

A line table lists the offsets at which the lines of a text start.  The place of an offset is looked
up in it by binary search, so that the text need not be walked over again.
-/

namespace SchemaLang

/-- The offsets at which the lines of a text start, in increasing order. -/
structure LineTable where
  starts : Array Nat
deriving Repr

namespace LineTable

/-- The offsets behind the line feeds of a text that starts at the given offset. -/
def behindFeeds (offset : Nat) : List Char → List Nat
  | [] => []
  | c :: cs =>
      let behind := offset + c.utf8Size
      if c = '\n' then behind :: behindFeeds behind cs else behindFeeds behind cs

/-- The first line starts with the text and every other behind a line feed. -/
def ofText (text : String) : LineTable :=
  ⟨(0 :: behindFeeds 0 text.toList).toArray⟩

/-- What a search ends with: the line that starts at the offset, or the line in front of which one
that starts there would have to be put. -/
inductive Finding where
  | line (index : Nat)
  | before (index : Nat)
deriving DecidableEq, Repr

/-- Binary search among the lines from `low` up to, but without, `high`. -/
def searchBetween (starts : Array Nat) (offset low high : Nat) (h : high ≤ starts.size) :
    Finding :=
  if hlow : low < high then
    let middle := low + (high - low) / 2
    if starts[middle] = offset then .line middle
    else if starts[middle] < offset then searchBetween starts offset (middle + 1) high h
    else searchBetween starts offset low middle (by omega)
  else .before low
termination_by high - low

def search (table : LineTable) (offset : Nat) : Finding :=
  searchBetween table.starts offset 0 table.starts.size (Nat.le_refl _)

/-- The difference of two numbers, if the second is not the greater one. -/
def minus? (m n : Nat) : Option Nat :=
  if n ≤ m then some (m - n) else none

/-- The line that an offset stands in: the one that starts there, or else the one in front of the
first that starts behind it. -/
def Finding.index? : Finding → Option Nat
  | .line index => some index
  | .before index => minus? index 1

/-- The place of an offset; none if there is no line for it or a difference would be negative. -/
def place? (table : LineTable) (offset : Nat) (source : String) : Option Location := do
  let line ← (table.search offset).index?
  let start ← table.starts[line]?
  let column ← minus? offset start
  return ⟨UInt32.ofNat offset, UInt32.ofNat line + 1, UInt32.ofNat column + 1, source⟩

end LineTable

end SchemaLang
