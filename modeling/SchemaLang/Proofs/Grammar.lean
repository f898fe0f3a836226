import SchemaLang.Package.Reader
import SchemaLang.Proofs.LiteralShape

/-!
# The grammar of schema sources

    package     := attributes `package` STRING (attributes element)*
    element     := `use` STRING
                 | (`class` | `struct`) NAME (`:` IDENTIFIER)? `{` field* `}`
                 | `enum` NAME `{` list(NAME)? `}`
    field       := attributes type NAME (`,` NAME)*
    type        := IDENTIFIER (`[` INTEGER? `]`)*
    attributes  := (`@` (entry | `{` list(entry)? `}`))*
    entry       := `message` | (`export_as` | `exportAs`) `:` STRING | `precision` `:` sum
                 | `range` `:` (`[` | `<`) sum `,` sum (`]` | `>`) | `version` `:` INTEGER
    list(item)  := item (`,` item)* `,`?
    sum         := product | sum (`+` | `-`) product
    product     := unary | product (`*` | `/`) unary
    unary       := `-` unary | operand | operand `^` unary
    operand     := INTEGER | FLOAT | `inf` | `sqrt` `(` sum `)` | `(` sum `)`

A derivation is a tree; for each rule of the grammar there is a type of trees, whose leaves are
tokens.  A tree stands over the tokens at its leaves, it may have to fulfil conditions that the
grammar cannot express, and it means a part of a schema.
-/

namespace SchemaLang.Grammar

/-- A rule of the grammar, given by what its trees stand over and mean. -/
structure Rule (τ α : Type) where
  /-- The tokens at the leaves of a tree. -/
  tokens : τ → List Token
  /-- What is asked of a tree beyond the grammar. -/
  Admissible : τ → Prop
  meaning : τ → α

/-- A leaf: a well-shaped token that the grammar wants at this place. -/
abbrev Terminal (wanted : Token → Bool) : Type :=
  { t : Token // wanted t ∧ t.HasShape }

/-- A token of one kind. -/
abbrev Word (kind : TokenKind) : Type :=
  Terminal fun t => t.kind = kind

/-- An identifier without dots. -/
abbrev Name : Type :=
  Terminal fun t => t.kind = .identifier && !t.literal.toList.contains '.'

/-- The identifier of one spelling. -/
abbrev Key (word : String) : Type :=
  Terminal fun t => t.kind = .identifier && t.literal = word

theorem kind_word {kind : TokenKind} (t : Word kind) : t.1.kind = kind := by
  simpa using t.2.1

theorem kind_name (t : Name) : t.1.kind = .identifier ∧ '.' ∉ t.1.literal.toList := by
  simpa using t.2.1

theorem kind_key {word : String} (t : Key word) :
    t.1.kind = .identifier ∧ t.1.literal = word := by
  simpa using t.2.1

/-- A token of the first line of a source without a name. -/
def tokenAt (offset : Nat) (kind : TokenKind) (literal : String) : Token :=
  ⟨kind, literal, ⟨UInt32.ofNat offset, 1, UInt32.ofNat (offset + 1), ""⟩⟩

/-- Such a token, where any token of its kind is wanted. -/
def wordAt (offset : Nat) (kind : TokenKind) (literal : String)
    (h : (tokenAt offset kind literal).HasShape) : Word kind :=
  ⟨tokenAt offset kind literal, decide_eq_true rfl, h⟩

/-- The number that an integer literal writes. -/
def numberOf (word : Word .integer) : Nat :=
  Decimal.natOf word.1.literal.toList

/-- Items with commas between them.  A comma may stand behind the last. -/
structure Listing (τ : Type) where
  first : τ
  others : List (Word .comma × τ)
  trailing : Option (Word .comma)

namespace Rule

variable {τ α β : Type}

def terminal (wanted : Token → Bool) : Rule (Terminal wanted) Token where
  tokens t := [t.1]
  Admissible _ := True
  meaning t := t.1

/-- The same trees with what is computed from their meaning. -/
def map (r : Rule τ α) (f : α → β) : Rule τ β where
  tokens := r.tokens
  Admissible := r.Admissible
  meaning x := f (r.meaning x)

/-- A tree behind a token that only introduces it. -/
def behind (kind : TokenKind) (r : Rule τ α) : Rule (Word kind × τ) α where
  tokens x := x.1.1 :: r.tokens x.2
  Admissible x := r.Admissible x.2
  meaning x := r.meaning x.2

/-- Any number of trees. -/
def many (r : Rule τ α) : Rule (List τ) (List α) where
  tokens l := l.flatMap r.tokens
  Admissible l := ∀ x ∈ l, r.Admissible x
  meaning l := l.map r.meaning

@[simp] theorem many_tokens_nil (r : Rule τ α) : r.many.tokens [] = [] := rfl

@[simp] theorem many_tokens_cons (r : Rule τ α) (x : τ) (l : List τ) :
    r.many.tokens (x :: l) = r.tokens x ++ r.many.tokens l := rfl

@[simp] theorem many_admissible_nil (r : Rule τ α) : r.many.Admissible [] :=
  fun _ hx => nomatch hx

@[simp] theorem many_admissible_cons (r : Rule τ α) (x : τ) (l : List τ) :
    r.many.Admissible (x :: l) ↔ r.Admissible x ∧ r.many.Admissible l :=
  List.forall_mem_cons

@[simp] theorem behind_tokens (kind : TokenKind) (r : Rule τ α) (x : Word kind × τ) :
    (r.behind kind).tokens x = x.1.1 :: r.tokens x.2 := rfl

def listing (r : Rule τ α) : Rule (Listing τ) (List α) where
  tokens l := r.tokens l.first ++ ((r.behind .comma).many.tokens l.others ++
    (l.trailing.map Subtype.val).toList)
  Admissible l := r.Admissible l.first ∧ (r.behind .comma).many.Admissible l.others
  meaning l := r.meaning l.first :: (r.behind .comma).many.meaning l.others

/-- Items up to the brace that closes them. -/
def braced (r : Rule τ α) : Rule (List τ × Word .rightBrace) (List α) where
  tokens x := r.many.tokens x.1 ++ [x.2.1]
  Admissible x := r.many.Admissible x.1
  meaning x := r.many.meaning x.1

/-- A listing, which may be missing, up to the brace that closes it. -/
def listed (r : Rule τ α) : Rule (Option (Listing τ) × Word .rightBrace) (List α) where
  tokens x := x.1.elim [] r.listing.tokens ++ [x.2.1]
  Admissible x := x.1.elim True r.listing.Admissible
  meaning x := x.1.elim [] r.listing.meaning

end Rule

/-! ### Constant expressions -/

mutual

/-- A sum of products. -/
inductive SumTree where
  | product (only : ProductTree)
  | more (left : SumTree)
      (operator : Terminal fun t => t.kind = .plus || t.kind = .minus) (right : ProductTree)

/-- A product of signed powers. -/
inductive ProductTree where
  | unary (only : UnaryTree)
  | more (left : ProductTree)
      (operator : Terminal fun t => t.kind = .star || t.kind = .slash) (right : UnaryTree)

/-- An operand, a power, or either with a minus sign before it. -/
inductive UnaryTree where
  | negated (sign : Word .minus) (operand : UnaryTree)
  | operand (only : OperandTree)
  | power (base : OperandTree) (caret : Word .caret) (exponent : UnaryTree)

inductive OperandTree where
  | number (literal : Terminal fun t => t.kind = .integer || t.kind = .float)
  | infinity (word : Key "inf")
  | root (word : Key "sqrt") (opening : Word .leftParen) (inner : SumTree)
      (closing : Word .rightParen)
  | grouped (opening : Word .leftParen) (inner : SumTree) (closing : Word .rightParen)

end

mutual

def SumTree.tokens : SumTree → List Token
  | .product only => only.tokens
  | .more left operator right => left.tokens ++ operator.1 :: right.tokens

def ProductTree.tokens : ProductTree → List Token
  | .unary only => only.tokens
  | .more left operator right => left.tokens ++ operator.1 :: right.tokens

def UnaryTree.tokens : UnaryTree → List Token
  | .negated sign operand => sign.1 :: operand.tokens
  | .operand only => only.tokens
  | .power base caret exponent => base.tokens ++ caret.1 :: exponent.tokens

def OperandTree.tokens : OperandTree → List Token
  | .number literal => [literal.1]
  | .infinity word => [word.1]
  | .root word opening inner closing =>
      word.1 :: opening.1 :: (inner.tokens ++ [closing.1])
  | .grouped opening inner closing => opening.1 :: (inner.tokens ++ [closing.1])

end

/-- The float that a number literal writes. -/
def floatOf (literal : Terminal fun t => t.kind = .integer || t.kind = .float) : Float :=
  (Decimal.readFloat? literal.1.literal.toList).get
    (Token.isSome_readFloat?_literal literal.2.2 (by simpa using literal.2.1))

/-- The operator that a token between two operands stands for. -/
def additive (t : Token) : Operator :=
  if t.kind = .plus then .add else .subtract

def multiplicative (t : Token) : Operator :=
  if t.kind = .star then .multiply else .divide

mutual

def SumTree.expr : SumTree → Expr
  | .product only => only.expr
  | .more left operator right => .binary (additive operator.1) left.expr right.expr

def ProductTree.expr : ProductTree → Expr
  | .unary only => only.expr
  | .more left operator right => .binary (multiplicative operator.1) left.expr right.expr

def UnaryTree.expr : UnaryTree → Expr
  | .negated _ operand => .negate operand.expr
  | .operand only => only.expr
  | .power base _ exponent => .binary .power base.expr exponent.expr

def OperandTree.expr : OperandTree → Expr
  | .number literal => .number (floatOf literal)
  | .infinity _ => .number (1.0 / 0.0)
  | .root _ _ inner _ => .root inner.expr
  | .grouped _ inner _ => inner.expr

end

/-- The expressions, whatever their value. -/
def sum : Rule SumTree Expr where
  tokens := SumTree.tokens
  Admissible _ := True
  meaning := SumTree.expr

/-- The expressions whose value is a number. -/
def constant : Rule SumTree Float where
  tokens := SumTree.tokens
  Admissible s := s.expr.value.isNaN = false
  meaning s := s.expr.value

/-! ### Attributes -/

/-- The bounds of a range. -/
structure Bounds where
  opening : Terminal fun t => t.kind = .leftBracket || t.kind = .leftAngle
  lower : SumTree
  comma : Word .comma
  upper : SumTree
  closing : Terminal fun t => t.kind = .rightBracket || t.kind = .rightAngle

/-- The range that the bounds describe, in order or not. -/
def Bounds.range (b : Bounds) : Range :=
  ⟨b.lower.expr.value, b.upper.expr.value, b.opening.1.kind = .leftBracket,
    b.closing.1.kind = .rightBracket⟩

def bounds : Rule Bounds Attribute where
  tokens b := b.opening.1 :: (constant.tokens b.lower ++ b.comma.1 ::
    (constant.tokens b.upper ++ [b.closing.1]))
  Admissible b := constant.Admissible b.lower ∧ constant.Admissible b.upper ∧
    Range.make b.range.lower b.range.lowerInclusive b.range.upper b.range.upperInclusive =
      .ok b.range
  meaning b := .range b.range

/-- An attribute with the value that belongs to its key. -/
inductive Entry where
  | message (key : Key "message")
  | exportAs
      (key : Terminal fun t =>
        t.kind = .identifier && (t.literal = "export_as" || t.literal = "exportAs"))
      (colon : Word .colon) (name : Word .string)
  | precision (key : Key "precision") (colon : Word .colon) (step : SumTree)
  | range (key : Key "range") (colon : Word .colon) (values : Bounds)
  | version (key : Key "version") (colon : Word .colon) (number : Word .integer)

def entry : Rule Entry Attribute where
  tokens
    | .message key => [key.1]
    | .exportAs key colon name => [key.1, colon.1, name.1]
    | .precision key colon step => key.1 :: colon.1 :: constant.tokens step
    | .range key colon values => key.1 :: colon.1 :: bounds.tokens values
    | .version key colon number => [key.1, colon.1, number.1]
  Admissible
    | .message _ => True
    | .exportAs _ _ _ => True
    | .precision _ _ step => constant.Admissible step
    | .range _ _ values => bounds.Admissible values
    | .version _ _ number => Decimal.FitsSigned (numberOf number)
  meaning
    | .message _ => .message
    | .exportAs _ _ name => .exportAs (Literal.textOf name.1.literal)
    | .precision _ _ step => .precision (constant.meaning step)
    | .range _ _ values => bounds.meaning values
    | .version _ _ number => .version (numberOf number)

/-- What stands behind one `@`.  Between braces there may be nothing. -/
inductive Group where
  | single (only : Entry)
  | block (opening : Word .leftBrace) (entries : Option (Listing Entry) × Word .rightBrace)

def group : Rule Group (List Attribute) where
  tokens
    | .single only => entry.tokens only
    | .block opening entries => opening.1 :: entry.listed.tokens entries
  Admissible
    | .single only => entry.Admissible only
    | .block _ entries => entry.listed.Admissible entries
  meaning
    | .single only => [entry.meaning only]
    | .block _ entries => entry.listed.meaning entries

/-- The attributes before a declaration. -/
abbrev Attributes : Type :=
  List (Word .at × Group)

def attributes : Rule Attributes (List Attribute) :=
  (group.behind .at).many.map List.flatten

/-! ### Fields -/

/-- The size between the brackets of an array, and the closing bracket. -/
structure Size where
  number : Option (Word .integer)
  closing : Word .rightBracket

def size : Rule Size ArraySize where
  tokens s := (s.number.map Subtype.val).toList ++ [s.closing.1]
  Admissible s := s.number.elim True fun number => Decimal.FitsSigned (numberOf number)
  meaning s := .ofOption (s.number.map numberOf)

/-- A word and the arrays around it. -/
structure Typed where
  word : Word .identifier
  sizes : List (Word .leftBracket × Size)

def typed : Rule Typed FieldType where
  tokens t := t.word.1 :: (size.behind .leftBracket).many.tokens t.sizes
  Admissible t := (size.behind .leftBracket).many.Admissible t.sizes
  meaning t := ((size.behind .leftBracket).many.meaning t.sizes).foldl .array
    (.ofWord t.word.1.literal)

/-- A name with its place. -/
def placedName : Rule Name (String × Location) :=
  (Rule.terminal _).map fun t => (t.literal, t.location)

/-- Fields of one type that are declared at once. -/
structure Declaration where
  attributes : Attributes
  type : Typed
  first : Name
  others : List (Word .comma × Name)

def declaration : Rule Declaration (List Field) where
  tokens d := attributes.tokens d.attributes ++ (typed.tokens d.type ++
    (placedName.tokens d.first ++ (placedName.behind .comma).many.tokens d.others))
  Admissible d := attributes.Admissible d.attributes ∧ typed.Admissible d.type ∧
    (d.others ≠ [] →
      Attribute.AllApply (attributes.meaning d.attributes) (.fields (typed.meaning d.type)))
  meaning d := (placedName.meaning d.first :: (placedName.behind .comma).many.meaning d.others).map
    fun (name, here) => ⟨typed.meaning d.type, name, attributes.meaning d.attributes, here⟩

/-! ### Packages -/

/-- A struct or class behind its attributes. -/
structure StructTree where
  keyword : Terminal fun t => t.kind = .classKeyword || t.kind = .structKeyword
  name : Name
  parent : Option (Word .colon × Word .identifier)
  opening : Word .leftBrace
  fields : List Declaration × Word .rightBrace

/-- The parent that a struct names behind a colon. -/
def parentClause : Rule (Option (Word .colon × Word .identifier)) (Option String) where
  tokens p := p.elim [] fun (colon, name) => [colon.1, name.1]
  Admissible _ := True
  meaning p := p.map fun (_, name) => name.1.literal

/-- Structs and classes with the attributes before them. -/
def struct (decorated : List Attribute) : Rule StructTree Struct where
  tokens s := s.keyword.1 :: s.name.1 :: (parentClause.tokens s.parent ++ s.opening.1 ::
    declaration.braced.tokens s.fields)
  Admissible s := declaration.braced.Admissible s.fields
  meaning s := ⟨s.name.1.literal, s.keyword.1.kind = .classKeyword, parentClause.meaning s.parent,
    none, (declaration.braced.meaning s.fields).flatten, decorated, s.keyword.1.location⟩

/-- An enum behind its attributes. -/
structure EnumTree where
  keyword : Word .enumKeyword
  name : Name
  opening : Word .leftBrace
  enumerals : Option (Listing Name) × Word .rightBrace

def enumeral : Rule Name Enumeral :=
  (Rule.terminal _).map fun t => ⟨t.literal, t.location⟩

def enumeration (decorated : List Attribute) : Rule EnumTree Enumeration where
  tokens e := e.keyword.1 :: e.name.1 :: e.opening.1 :: enumeral.listed.tokens e.enumerals
  Admissible e := enumeral.listed.Admissible e.enumerals
  meaning e := ⟨e.name.1.literal, enumeral.listed.meaning e.enumerals, decorated,
    e.keyword.1.location⟩

/-- An import behind its attributes. -/
structure ImportTree where
  keyword : Word .useKeyword
  name : Word .string

def imported (decorated : List Attribute) : Rule ImportTree Import where
  tokens i := [i.keyword.1, i.name.1]
  Admissible _ := True
  meaning i := ⟨Literal.textOf i.name.1.literal, decorated, i.keyword.1.location⟩

/-- What a package holds, behind its attributes. -/
inductive Element where
  | imported (tree : ImportTree)
  | struct (tree : StructTree)
  | enumeration (tree : EnumTree)

def element (decorated : List Attribute) : Rule Element Package.Item where
  tokens
    | .imported tree => (imported decorated).tokens tree
    | .struct tree => (struct decorated).tokens tree
    | .enumeration tree => (enumeration decorated).tokens tree
  Admissible
    | .imported tree => (imported decorated).Admissible tree
    | .struct tree => (struct decorated).Admissible tree
    | .enumeration tree => (enumeration decorated).Admissible tree
  meaning
    | .imported tree => .imported ((imported decorated).meaning tree)
    | .struct tree => .defined (.struct ((struct decorated).meaning tree))
    | .enumeration tree => .defined (.enumeration ((enumeration decorated).meaning tree))

/-- What an element stands over does not depend on the attributes before it. -/
theorem element_tokens (decorated others : List Attribute) (e : Element) :
    (element decorated).tokens e = (element others).tokens e := by
  cases e <;> rfl

def item : Rule (Attributes × Element) Package.Item where
  tokens x := attributes.tokens x.1 ++ (element (attributes.meaning x.1)).tokens x.2
  Admissible x := attributes.Admissible x.1 ∧
    (element (attributes.meaning x.1)).Admissible x.2
  meaning x := (element (attributes.meaning x.1)).meaning x.2

/-- A whole source. -/
structure PackageTree where
  attributes : Attributes
  keyword : Word .packageKeyword
  name : Word .string
  items : List (Attributes × Element)

def package : Rule PackageTree Package where
  tokens p := attributes.tokens p.attributes ++ p.keyword.1 :: p.name.1 ::
    item.many.tokens p.items
  Admissible p := attributes.Admissible p.attributes ∧ item.many.Admissible p.items
  meaning p := (item.many.meaning p.items).foldl Package.add
    (.empty (Literal.textOf p.name.1.literal) (attributes.meaning p.attributes)
      p.keyword.1.location)

/-- A derivation of `package "p" struct S`, with fields in braces, on one line; the last brace
stands at the given offset. -/
def oneStruct (fields : List Declaration) (stop : Nat) : PackageTree where
  attributes := []
  keyword := wordAt 0 .packageKeyword "package" trivial
  name := wordAt 8 .string "\"p\"" (@Lexeme.IsQuoted.intro ['p'] (by simp [Lexeme.isQuotable]))
  items := [([], .struct {
    keyword := ⟨tokenAt 12 .structKeyword "struct", rfl, trivial⟩
    name := ⟨tokenAt 19 .identifier "S", by decide, trivial⟩
    parent := none
    opening := wordAt 21 .leftBrace "\x7b" trivial
    fields := (fields, wordAt stop .rightBrace "\x7d" trivial) })]

end SchemaLang.Grammar
