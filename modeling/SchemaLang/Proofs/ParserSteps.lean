import SchemaLang.Package.Reader

/-!
# Reading step by step

The readers of this library take what they need from the front of a list.  Here the same grammar is
read by a machine that keeps the tokens in a vector and moves a position over them.  It has a
routine for each rule and a routine for each loop, which calls itself for another round.  A routine
looks at the slot under the position, moves on, or calls another routine, and the machine does one
of these in a step.
-/

namespace SchemaLang

/-- What stands at an index of the vector: a token, or behind the last one the end of the source. -/
inductive Slot where
  | token (t : Token)
  | stop (place : Location)
deriving DecidableEq, Repr

namespace Slot

def token? : Slot → Option Token
  | .token t => some t
  | .stop _ => none

def kind? (slot : Slot) : Option TokenKind :=
  slot.token?.map Token.kind

def is (kind : TokenKind) (slot : Slot) : Bool :=
  slot.kind? = some kind

def isStop : Slot → Bool
  | .token _ => false
  | .stop _ => true

def literal : Slot → String
  | .token t => t.literal
  | .stop _ => ""

def location : Slot → Location
  | .token t => t.location
  | .stop place => place

/-- The complaint that something else was needed than what is in the slot. -/
def unexpected (expected : Expectation) : Slot → SyntaxError
  | .token t =>
      if t.kind = .invalid then .invalidToken t.literal t.location
      else .unexpectedToken expected (some t.literal) t.location
  | .stop place => .unexpectedToken expected none place

end Slot

namespace Tokens

/-- The vector that a source is read from. -/
def slots (ts : Tokens) : List Slot :=
  ts.list.map .token ++ [.stop ts.stop]

theorem length_slots (ts : Tokens) : ts.slots.length = ts.list.length + 1 := by
  simp [slots]

/-- The vector holds what a reader that asks for one token after another is told, up to the first
time that there are no more. -/
theorem map_token?_slots (ts : Tokens) : ts.slots.map Slot.token? = ts.ask ts.slots.length := by
  have htoken : Slot.token? ∘ .token = some := rfl
  rw [length_slots, ask, List.take_of_length_le (Nat.le_succ _)]
  simp [slots, htoken, Slot.token?]

/-- The end of the source stands in the last slot and nowhere else. -/
theorem exists_stop_iff (ts : Tokens) (i : Nat) :
    (∃ place, ts.slots[i]? = some (.stop place)) ↔ i + 1 = ts.slots.length := by
  rw [length_slots, Nat.add_right_cancel_iff]
  constructor
  · rintro ⟨place, h⟩
    obtain hlt | heq | hgt := Nat.lt_trichotomy i ts.list.length
    · simp [slots, List.getElem?_append, hlt] at h
    · exact heq
    · rw [List.getElem?_eq_none (by rw [length_slots]; exact hgt)] at h
      cases h
  · rintro rfl
    exact ⟨ts.stop, by simp [slots]⟩

end Tokens

namespace Parser

/-- The rules and the loops of the grammar.  Some are told what has been read in front of them. -/
inductive Routine where
  /-- A whole source. -/
  | package
  /-- A text that holds one constant expression. -/
  | expression
  | items
  | struct (attributes : List Attribute)
  | enumeration (attributes : List Attribute)
  | enumerals
  | fields
  | field
  | names
  | type
  | arrays (element : FieldType)
  | attributes
  /-- The entries of an attribute block. -/
  | entries
  | entry
  | range
  | constant
  | sum
  | terms (left : Expr)
  | product
  | factors (left : Expr)
  | unary
  | operand

namespace Routine

/-- What a routine reads. -/
@[reducible] def Result : Routine → Type
  | package => Package
  | expression => Float
  | items => List Package.Item
  | struct _ => Struct
  | enumeration _ => Enumeration
  | enumerals => List Enumeral
  | fields => List (List Field)
  | field => List Field
  | names => List (String × Location)
  | type => FieldType
  | arrays _ => FieldType
  | attributes => List Attribute
  | entries => List Attribute
  | entry => Attribute
  | range => Attribute
  | constant => Float
  | sum => Expr
  | terms _ => Expr
  | product => Expr
  | factors _ => Expr
  | unary => Expr
  | operand => Expr

/-- How far a routine is from the tokens.  Sums are above products, these above signed powers and
these above operands. -/
def level : Routine → Nat
  | operand => 0
  | unary => 1
  | factors _ => 1
  | product => 2
  | terms _ => 2
  | sum => 3
  | constant => 4
  | range => 5
  | entry => 6
  | entries => 7
  | attributes => 8
  | names => 0
  | arrays _ => 0
  | type => 1
  | field => 9
  | fields => 10
  | enumerals => 0
  | struct _ => 11
  | enumeration _ => 11
  | items => 12
  | package => 13
  | expression => 13

/-- A loop calls itself for another round, perhaps with more that has been read. -/
def Again : Routine → Routine → Prop
  | items, items => True
  | fields, fields => True
  | enumerals, enumerals => True
  | names, names => True
  | arrays _, arrays _ => True
  | attributes, attributes => True
  | entries, entries => True
  | terms _, terms _ => True
  | factors _, factors _ => True
  | _, _ => False

end Routine

/-! ### Programs -/

/-- What is left to be done of a routine. -/
inductive Program (α : Type) : Type where
  | done (a : α)
  | fail (e : SyntaxError)
  /-- Looks at the slot under the position. -/
  | peek (next : Slot → Program α)
  /-- Moves on, except from the end of the source, and tells what was under the position. -/
  | advance (next : Slot → Program α)
  | call (r : Routine) (next : r.Result → Program α)

namespace Program

variable {α β : Type}

def bind (f : α → Program β) : Program α → Program β
  | .done a => f a
  | .fail e => .fail e
  | .peek next => .peek fun slot => (next slot).bind f
  | .advance next => .advance fun slot => (next slot).bind f
  | .call r next => .call r fun a => (next a).bind f

instance : Monad Program where
  pure := .done
  bind m f := m.bind f

def look : Program Slot :=
  .peek .done

def move : Program Slot :=
  .advance .done

def run (r : Routine) : Program r.Result :=
  .call r .done

def ofExcept : Except SyntaxError α → Program α
  | .ok a => .done a
  | .error e => .fail e

/-- The place of the next token. -/
def here : Program Location := do
  return (← look).location

/-- Fails because something else is needed than what comes next. -/
def refuse (expected : Expectation) : Program α := do
  .fail ((← look).unexpected expected)

/-- Moves over a token of the given kind, and says whether it did. -/
def eat (kind : TokenKind) : Program Bool := do
  if (← look).is kind then
    let _ ← move
    return true
  else return false

/-- Moves over a token that is wanted, and fails otherwise. -/
def take (wanted : Slot → Bool) (expected : Expectation) : Program Slot := do
  if wanted (← look) then move else refuse expected

def expect (kind : TokenKind) (expected : Expectation) : Program Slot :=
  take (Slot.is kind) expected

def quoted (expected : Expectation) : Program String := do
  let t ← expect .string expected
  ofExcept (Literal.unquote t.literal t.location)

def simpleName (expected : Expectation) : Program Slot :=
  take (fun slot => slot.is .identifier && !slot.literal.toList.contains '.') expected

/-! ### The routines -/

def importBehind (attributes : List Attribute) (keyword : Slot) : Program Import := do
  let name ← quoted .importedName
  return ⟨name, attributes, keyword.location⟩

/-- The item that a keyword announces. -/
def itemFrom (attributes : List Attribute) : Option TokenKind → Program Package.Item
  | some .useKeyword => do
      let keyword ← move
      return .imported (← importBehind attributes keyword)
  | some .classKeyword => return .defined (.struct (← run (.struct attributes)))
  | some .structKeyword => return .defined (.struct (← run (.struct attributes)))
  | some .enumKeyword => return .defined (.enumeration (← run (.enumeration attributes)))
  | _ => refuse .declaration

def item : Program Package.Item := do
  let attributes ← run .attributes
  itemFrom attributes (← look).kind?

def parent : Program (Option String) := do
  if ← eat .colon then
    let t ← expect .identifier .parentName
    return some t.literal
  else return none

def structBehind (attributes : List Attribute) (keyword : Slot) : Program Struct := do
  let name ← simpleName .typeName
  let parent ← parent
  let _ ← expect .leftBrace .openingBrace
  let fields ← run .fields
  return ⟨name.literal, keyword.is .classKeyword, parent, none, fields.flatten, attributes,
    keyword.location⟩

def enumerationBehind (attributes : List Attribute) (keyword : Slot) : Program Enumeration := do
  let name ← simpleName .enumName
  let _ ← expect .leftBrace .openingBrace
  let enumerals ← run .enumerals
  return ⟨name.literal, enumerals, attributes, keyword.location⟩

/-- The name of a field with its place. -/
def placedName : Program (String × Location) := do
  let place ← here
  let name ← simpleName .fieldName
  return (name.literal, place)

def enumeral : Program Enumeral := do
  let place ← here
  let name ← simpleName .enumeralName
  return ⟨name.literal, place⟩

/-- The size between the brackets of an array. -/
def size : Program ArraySize := do
  if (← look).is .integer then
    let t ← move
    return .fixed (← ofExcept (Literal.toSize t.literal t.location))
  else return .unbounded

/-- One attribute, or several in braces. -/
def group : Program (List Attribute) := do
  if ← eat .leftBrace then run .entries else return [← run .entry]

/-- The value that belongs to the key of an attribute. -/
def value (key : Slot) : Program Attribute :=
  if key.literal = "message" then return .message
  else if key.literal = "export_as" ∨ key.literal = "exportAs" then do
    let _ ← expect .colon .colon
    return .exportAs (← quoted .exportedName)
  else if key.literal = "precision" then do
    let _ ← expect .colon .colon
    let place ← here
    let step ← run .constant
    ofExcept (Attribute.ofPrecision step place)
  else if key.literal = "range" then do
    let _ ← expect .colon .colon
    run .range
  else if key.literal = "version" then do
    let _ ← expect .colon .colon
    let t ← expect .integer .versionNumber
    let number ← ofExcept (Literal.toInt t.literal t.location)
    return .version number
  else .fail (.unknownAttribute key.literal key.location)

/-- A sum and the parenthesis behind it. -/
def parenthesised : Program Expr := do
  let inner ← run .sum
  let _ ← expect .rightParen .closingParen
  return inner

/-- What an operand is that starts with the given token. -/
def operandFrom (t : Slot) : Program Expr :=
  if t.is .integer ∨ t.is .float then do
    return .number (← ofExcept (Literal.toFloat t.literal t.location))
  else if t.is .identifier ∧ t.literal = "inf" then return .number (1.0 / 0.0)
  else if t.is .identifier ∧ t.literal = "sqrt" then do
    let _ ← expect .leftParen .openingParen
    return .root (← parenthesised)
  else if t.is .leftParen then parenthesised
  else .fail (t.unexpected .number)

/-- What closes a range behind its upper bound. -/
def rangeFrom (opening : Slot) (lower upper : Float) : Program Attribute := do
  let closing ← move
  if closing.is .rightBracket || closing.is .rightAngle then
    ofExcept (Attribute.ofBounds lower (opening.is .leftBracket) upper (closing.is .rightBracket)
      opening.location)
  else .fail (closing.unexpected .rangeClosing)

/-- One round of a loop whose items have commas between them and a brace behind them. -/
def listing (item : Program α) (again : Program (List α)) : Program (List α) := do
  if ← eat .rightBrace then return []
  else
    let a ← item
    if ← eat .comma then
      let as ← again
      return a :: as
    else
      let _ ← expect .rightBrace .commaOrClosingBrace
      return [a]

/-- What follows behind the left operand of an operator, if there is one. -/
def operation (item : Program Expr) (again : Expr → Program Expr) (left : Expr) :
    Option Operator → Program Expr
  | some op => do
      let _ ← move
      let right ← item
      again (.binary op left right)
  | none => return left

/-- One round of a loop for operators, which goes on with what it has read so far. -/
def further (op? : TokenKind → Option Operator) (item : Program Expr) (again : Expr → Program Expr)
    (left : Expr) : Program Expr := do
  operation item again left ((← look).kind?.bind op?)

/-- What each routine does. -/
def body : (r : Routine) → Program r.Result
  | .package => do
      let attributes ← run .attributes
      let keyword ← expect .packageKeyword .packageKeyword
      let name ← quoted .packageName
      let items ← run .items
      return items.foldl Package.add (.empty name attributes keyword.location)
  | .expression => do
      let x ← run .constant
      let _ ← take Slot.isStop .endOfExpression
      return x
  | .items => do
      if (← look).isStop then return []
      else
        let i ← item
        let is ← run .items
        return i :: is
  | .struct attributes => do
      let keyword ← move
      structBehind attributes keyword
  | .enumeration attributes => do
      let keyword ← move
      enumerationBehind attributes keyword
  | .enumerals => listing enumeral (run .enumerals)
  | .fields => do
      if ← eat .rightBrace then return []
      else
        let f ← run .field
        let fs ← run .fields
        return f :: fs
  | .field => do
      let attributes ← run .attributes
      let place ← here
      let type ← run .type
      let names ← run .names
      ofExcept (Field.declare type names attributes place)
  | .names => do
      let name ← placedName
      if ← eat .comma then
        let names ← run .names
        return name :: names
      else return [name]
  | .type => do
      let word ← expect .identifier .fieldType
      run (.arrays (.ofWord word.literal))
  | .arrays element => do
      if ← eat .leftBracket then
        let size ← size
        let _ ← expect .rightBracket .closingBracket
        run (.arrays (.array element size))
      else return element
  | .attributes => do
      if ← eat .at then
        let attributes ← group
        let others ← run .attributes
        return attributes ++ others
      else return []
  | .entries => listing (run .entry) (run .entries)
  | .entry => do
      let key ← expect .identifier .attributeName
      value key
  | .range => do
      let opening ← move
      if opening.is .leftBracket || opening.is .leftAngle then
        let lower ← run .constant
        let _ ← expect .comma .comma
        let upper ← run .constant
        rangeFrom opening lower upper
      else .fail (opening.unexpected .rangeOpening)
  | .constant => do
      let place ← here
      let e ← run .sum
      if e.value.isNaN then .fail (.notANumber place) else return e.value
  | .sum => do
      let left ← run .product
      run (.terms left)
  | .terms left => further Expr.additive? (run .product) (fun e => run (.terms e)) left
  | .product => do
      let left ← run .unary
      run (.factors left)
  | .factors left => further Expr.multiplicative? (run .unary) (fun e => run (.factors e)) left
  | .unary => do
      if ← eat .minus then
        let e ← run .unary
        return .negate e
      else
        let base ← run .operand
        if ← eat .caret then
          let power ← run .unary
          return .binary .power base power
        else return base
  | .operand => do
      let t ← move
      operandFrom t

end Program

/-! ### The machine -/

/-- The routines that wait for the result of another, up to the one that reads all. -/
inductive Callers (main : Routine) : Routine → Type where
  | none : Callers main main
  | frame {callee : Routine} (caller : Routine) (entry : Nat)
      (next : callee.Result → Program caller.Result) (below : Callers main caller) :
      Callers main callee

/-- A moment of reading. -/
structure State (main : Routine) where
  /-- The routine that is at work. -/
  active : Routine
  /-- Where it was called. -/
  entry : Nat
  position : Nat
  /-- What is left of it. -/
  program : Program active.Result
  callers : Callers main active

/-- What comes of a step. -/
inductive Outcome (main : Routine) where
  | running (s : State main)
  | finished (result : Except SyntaxError main.Result)
  /-- The position is not in the vector. -/
  | outside

variable {main : Routine}

/-- Hands a result to the routine that waits for it. -/
def Callers.resume (position : Nat) : {active : Routine} → Callers main active → active.Result →
    Outcome main
  | _, .none, a => .finished (.ok a)
  | _, .frame caller entry next below, a => .running ⟨caller, entry, position, next a, below⟩

namespace State

/-- Before the first step. -/
def start (main : Routine) : State main :=
  ⟨main, 0, 0, Program.body main, .none⟩

/-- Does what comes next. -/
def step (slots : List Slot) : State main → Outcome main
  | ⟨_, _, position, .done a, callers⟩ => callers.resume position a
  | ⟨_, _, _, .fail e, _⟩ => .finished (.error e)
  | ⟨active, entry, position, .peek next, callers⟩ =>
      match slots[position]? with
      | some slot => .running ⟨active, entry, position, next slot, callers⟩
      | none => .outside
  | ⟨active, entry, position, .advance next, callers⟩ =>
      match slots[position]? with
      | some slot =>
          let position := if slot.isStop then position else position + 1
          .running ⟨active, entry, position, next slot, callers⟩
      | none => .outside
  | ⟨active, entry, position, .call r next, callers⟩ =>
      .running ⟨r, position, position, Program.body r, .frame active entry next callers⟩

/-- Does a number of steps, fewer if there is nothing more to do. -/
def run (slots : List Slot) : Nat → State main → Outcome main
  | 0, s => .running s
  | n + 1, s =>
      match s.step slots with
      | .running s => run slots n s
      | outcome => outcome

end State

end Parser

end SchemaLang
