import SchemaLang.Proofs.Layout
import SchemaLang.Proofs.Places

/-!
# Reformatting a source

Every reader of the language moves along with its tokens, so that what a source is read as depends
on its tokens only, but for places.  Layout between tokens does not change them, and so it does not
change what is read.
-/

namespace SchemaLang

open TokenReader

variable {φ : Location → Location}

/-! ### Checked construction -/

namespace Literal

theorem unquote_displace (literal : String) (place : Location) :
    unquote literal (φ place) = displaceOutcome φ id (unquote literal place) := by
  unfold unquote
  split
  · split <;> rfl
  · rfl

theorem toInt_displace (literal : String) (place : Location) :
    toInt literal (φ place) = displaceOutcome φ id (toInt literal place) := by
  unfold toInt
  split <;> rfl

theorem toSize_displace (literal : String) (place : Location) :
    toSize literal (φ place) = displaceOutcome φ id (toSize literal place) := by
  unfold toSize
  rw [toInt_displace]
  cases toInt literal place with
  | ok n => cases n <;> rfl
  | error e => rfl

theorem toFloat_displace (literal : String) (place : Location) :
    toFloat literal (φ place) = displaceOutcome φ id (toFloat literal place) := by
  unfold toFloat
  split <;> rfl

end Literal

theorem Attribute.ofPrecision_displace (step : Float) (place : Location) :
    ofPrecision step (φ place) = displaceOutcome φ id (ofPrecision step place) := by
  unfold ofPrecision
  split <;> rfl

theorem Attribute.ofBounds_displace (lower upper : Float) (lowerInclusive upperInclusive : Bool)
    (place : Location) : ofBounds lower lowerInclusive upper upperInclusive (φ place) =
      displaceOutcome φ id (ofBounds lower lowerInclusive upper upperInclusive place) := by
  unfold ofBounds
  split <;> rfl

theorem Field.declare_displace (type : FieldType) (names : List (String × Location))
    (attributes : List Attribute) (place : Location) :
    declare type (names.map (Prod.map id φ)) attributes (φ place) =
      displaceOutcome φ (List.map (Field.displace φ)) (declare type names attributes place) := by
  unfold declare
  simp only [List.length_map, List.map_map]
  split
  · rw [displaceOutcome, List.map_map]
    rfl
  · split
    · rw [displaceOutcome, List.map_map]
      rfl
    · rfl

/-! ### Constant expressions -/

namespace Expr

/-- A loop for operators moves where its operands do. -/
theorem movesAt_loop {loop : Expr → TokenReader Expr} {item : TokenReader Expr}
    {operators : List TokenKind} {op? : TokenKind → Option Operator} {stop : Location} {n : Nat}
    (hstop : ∀ {ts : List Token}, NotAhead operators ts → ∀ left stop,
      loop left stop ts = .ok (left, ts))
    (hop : ∀ kind ∈ operators, ∃ op, op? kind = some op)
    (hmore : ∀ {t : Token} {op : Operator}, op? t.kind = some op → ∀ left stop ts,
      loop left stop (t :: ts) = (item >>= fun right => loop (.binary op left right)) stop ts)
    (hadvances : Advances item)
    (hitem : ∀ {ts : List Token}, ts.length ≤ n → MovesAt φ id item item stop ts)
    {ts : List Token} (hn : ts.length ≤ n) (left : Expr) :
    MovesAt φ id (loop left) (loop left) stop ts := by
  induction hlength : ts.length using Nat.strongRecOn generalizing ts left with
  | ind m ih =>
  subst hlength
  by_cases hahead : NotAhead operators ts
  · rw [MovesAt, hstop hahead, hstop (notAhead_map_displace.mpr hahead)]
    rfl
  · obtain ⟨t, ts, hkind, rfl⟩ := exists_cons_of_ahead hahead
    obtain ⟨op, hop⟩ := hop t.kind hkind
    have hop' : op? (t.displace φ).kind = some op := hop
    rw [MovesAt, hmore hop, List.map_cons, hmore hop']
    refine (hitem (Nat.le_of_lt hn)).bind fun right mid hrun => ?_
    have hshorter : mid.length < (t :: ts).length := Nat.lt_succ_of_lt (hadvances hrun)
    exact ih _ hshorter (Nat.le_trans (Nat.le_of_lt hshorter) hn) (.binary op left right) rfl

section Moves

-- The induction is on the number of tokens: of fewer than `n` a sum is known to move.
variable {stop : Location} {n : Nat}
  (hsum : ∀ {ts : List Token}, ts.length < n → MovesAt φ id sum sum stop ts)

include hsum

theorem movesAt_parenthesised {ts : List Token} (hn : ts.length < n) :
    MovesAt φ id parenthesised parenthesised stop ts := by
  rw [parenthesised_eq]
  exact (hsum hn).bind fun e mid _ => (Moves.expect _ _ stop mid).bind fun _ _ _ => .pure rfl

theorem movesAt_operand {ts : List Token} (hn : ts.length ≤ n) :
    MovesAt φ id operand operand stop ts := by
  cases ts with
  | nil =>
      unfold MovesAt operand
      rw [List.map_nil, cutOperand, cutOperand]
      rfl
  | cons t ts =>
      rw [MovesAt, List.map_cons, operand_cons, operand_cons, Token.kind_displace,
        Token.literal_displace, Token.location_displace]
      by_cases hnumber : t.kind = .integer ∨ t.kind = .float
      · rw [if_pos hnumber, if_pos hnumber]
        exact (Moves.ofExcept (Literal.toFloat_displace _ _) stop ts).bind fun _ _ _ => .pure rfl
      rw [if_neg hnumber, if_neg hnumber]
      by_cases hinfinity : t.kind = .identifier ∧ t.literal = "inf"
      · rw [if_pos hinfinity, if_pos hinfinity]
        rfl
      rw [if_neg hinfinity, if_neg hinfinity]
      by_cases hroot : t.kind = .identifier ∧ t.literal = "sqrt"
      · rw [if_pos hroot, if_pos hroot]
        refine (Moves.expect _ _ stop ts).bind fun _ mid hrun => ?_
        have hmid : mid.length < n := Nat.lt_trans (advances_expect _ _ hrun) hn
        exact (movesAt_parenthesised hsum hmid).bind fun _ _ _ => .pure rfl
      rw [if_neg hroot, if_neg hroot]
      by_cases hopening : t.kind = .leftParen
      · rw [if_pos hopening, if_pos hopening]
        exact movesAt_parenthesised hsum hn
      · rw [if_neg hopening, if_neg hopening, ← List.map_cons, unexpected_map]
        rfl

theorem movesAt_unary {ts : List Token} (hn : ts.length ≤ n) :
    MovesAt φ id unary unary stop ts := by
  induction hlength : ts.length using Nat.strongRecOn generalizing ts with
  | ind m ih =>
  subst hlength
  by_cases hminus : NotAhead [.minus] ts
  · rw [MovesAt, unary_of_notAhead hminus, unary_of_notAhead (notAhead_map_displace.mpr hminus),
      power_eq]
    refine (movesAt_operand hsum hn).bind fun base mid hbase => ?_
    refine (Moves.accept .caret stop mid).bind fun raised last hcaret => ?_
    cases raised with
    | true =>
        have hshorter : last.length < ts.length :=
          Nat.lt_trans (accept_eq_true hcaret) (advances_operand hbase)
        exact (ih _ hshorter (Nat.le_trans (Nat.le_of_lt hshorter) hn) rfl).bind
          fun _ _ _ => .pure rfl
    | false => exact .pure rfl
  · obtain ⟨t, ts, hkind, rfl⟩ := exists_cons_of_ahead hminus
    rw [List.mem_singleton] at hkind
    have hkind' : (t.displace φ).kind = .minus := hkind
    rw [MovesAt, unary_cons_minus hkind, List.map_cons, unary_cons_minus hkind']
    exact (ih _ (Nat.lt_succ_self _) (Nat.le_of_lt hn) rfl).bind fun _ _ _ => .pure rfl

theorem movesAt_product {ts : List Token} (hn : ts.length ≤ n) :
    MovesAt φ id product product stop ts := by
  rw [product_eq]
  refine (movesAt_unary hsum hn).bind fun left mid hrun => ?_
  have hmid : mid.length ≤ n := Nat.le_trans (Nat.le_of_lt (advances_unary hrun)) hn
  exact movesAt_loop moreFactors_of_notAhead (by simp [multiplicative?]) moreFactors_cons
    advances_unary (movesAt_unary hsum) hmid left

end Moves

theorem moves_sum : Moves φ id sum sum := by
  intro stop ts
  induction hlength : ts.length using Nat.strongRecOn generalizing ts with
  | ind n ih =>
  subst hlength
  have hproduct {us : List Token} (hn : us.length ≤ ts.length) :
      MovesAt φ id product product stop us :=
    movesAt_product (fun hn => ih _ hn _ rfl) hn
  rw [sum_eq]
  refine (hproduct (Nat.le_refl _)).bind fun left mid hrun => ?_
  exact movesAt_loop moreTerms_of_notAhead (by simp [additive?]) moreTerms_cons
    advances_product hproduct (Nat.le_of_lt (advances_product hrun)) left

theorem moves_constant : Moves φ id constant constant := by
  refine Moves.here.bind fun place => moves_sum.bind fun e => ?_
  simp only [id]
  split
  · exact .ofExcept rfl
  · exact .pure rfl

end Expr

/-! ### Types, attributes and declarations -/

theorem FieldType.moves_readSize : Moves φ id readSize readSize := by
  refine .bind (.choose fun kind => ?_) fun size => (Moves.expect _ _).bind fun _ => .pure rfl
  split
  · exact (Moves.expect _ _).bind fun t =>
      (Moves.ofExcept (Literal.toSize_displace _ _)).bind fun size => .pure rfl
  · exact .pure rfl

theorem FieldType.moves_read : Moves φ id read read :=
  (Moves.expect _ _).bind fun word => (moves_readSize.manyAfter _ _ _).bind fun sizes =>
    .pure (by simp)

theorem TokenReader.moves_quoted (expected : Expectation) :
    Moves φ id (quoted expected) (quoted expected) :=
  (Moves.expect _ _).bind fun _ => .ofExcept (Literal.unquote_displace _ _)

theorem TokenReader.moves_simpleName (expected : Expectation) :
    Moves φ (Token.displace φ) (simpleName expected) (simpleName expected) :=
  .take (fun _ => rfl) expected

namespace Attribute

theorem moves_readBounds : Moves φ id readBounds readBounds :=
  (Moves.take (fun _ => rfl) _).bind fun _ => Expr.moves_constant.bind fun _ =>
    (Moves.expect _ _).bind fun _ => Expr.moves_constant.bind fun _ =>
      (Moves.take (fun _ => rfl) _).bind fun _ => .ofExcept (ofBounds_displace ..)

theorem moves_readPrecision : Moves φ id readPrecision readPrecision :=
  Moves.here.bind fun _ => Expr.moves_constant.bind fun _ => .ofExcept (ofPrecision_displace _ _)

theorem moves_readVersion : Moves φ id readVersion readVersion :=
  (Moves.expect _ _).bind fun _ => (Moves.ofExcept (Literal.toInt_displace _ _)).bind fun _ =>
    .pure rfl

theorem moves_readExportAs : Moves φ id readExportAs readExportAs :=
  (moves_quoted _).bind fun _ => .pure rfl

theorem moves_readValue {value : TokenReader Attribute} (h : Moves φ id value value) :
    Moves φ id (readValue value) (readValue value) :=
  (Moves.expect _ _).bind fun _ => h

theorem moves_readBehind (key : Token) :
    Moves φ id (readBehind key) (readBehind (key.displace φ)) := by
  unfold readBehind
  rw [Token.literal_displace, Token.location_displace]
  split
  · exact .pure rfl
  split
  · exact moves_readValue moves_readExportAs
  split
  · exact moves_readValue moves_readPrecision
  split
  · exact moves_readValue moves_readBounds
  split
  · exact moves_readValue moves_readVersion
  · exact .ofExcept rfl

theorem moves_readEntry : Moves φ id readEntry readEntry :=
  (Moves.expect _ _).bind moves_readBehind

theorem moves_readGroup : Moves φ (List.map id) readGroup readGroup :=
  (Moves.accept _).bind fun braced => by
    cases braced
    · exact moves_readEntry.bind fun _ => .pure rfl
    · exact moves_readEntry.commaSeparated _ _

theorem moves_readAll : Moves φ id readAll readAll :=
  (moves_readGroup.manyAfter _ _ _).bind fun groups => .pure (by simp)

end Attribute

namespace Field

theorem moves_readName : Moves φ (Prod.map id φ) readName readName :=
  (moves_simpleName _).bind fun _ => .pure rfl

theorem moves_readDeclaration :
    Moves φ (List.map (Field.displace φ)) readDeclaration readDeclaration :=
  Attribute.moves_readAll.bind fun attributes => Moves.here.bind fun place =>
    FieldType.moves_read.bind fun type => moves_readName.bind fun first =>
      (moves_readName.manyAfter _ _ _).bind fun others =>
        .ofExcept (declare_displace type (first :: others) attributes place)

end Field

namespace Struct

theorem moves_readParent : Moves φ id readParent readParent :=
  (Moves.accept _).bind fun colon => by
    cases colon
    · exact .pure rfl
    · exact (Moves.expect _ _).bind fun _ => .pure rfl

theorem moves_read (attributes : List Attribute) :
    Moves φ (Struct.displace φ) (read attributes) (read attributes) :=
  (Moves.take (fun _ => rfl) _).bind fun keyword => (moves_simpleName _).bind fun name =>
    moves_readParent.bind fun parent => (Moves.expect _ _).bind fun _ =>
      (Field.moves_readDeclaration.untilBrace _ _).bind fun fields => .pure (by
        simp only [Struct.displace, List.map_flatten, id]
        rfl)

end Struct

namespace Enumeration

theorem moves_readEnumeral : Moves φ (Enumeral.displace φ) readEnumeral readEnumeral :=
  (moves_simpleName _).bind fun _ => .pure rfl

theorem moves_read (attributes : List Attribute) :
    Moves φ (Enumeration.displace φ) (read attributes) (read attributes) :=
  (Moves.expect _ _).bind fun _ => (moves_simpleName _).bind fun _ =>
    (Moves.expect _ _).bind fun _ => (moves_readEnumeral.commaSeparated _ _).bind fun _ => .pure rfl

end Enumeration

theorem Import.moves_read (attributes : List Attribute) :
    Moves φ (Import.displace φ) (read attributes) (read attributes) :=
  (Moves.expect _ _).bind fun _ => (moves_quoted _).bind fun _ => .pure rfl

/-! ### Packages -/

namespace Package

def Item.displace (φ : Location → Location) : Item → Item
  | .imported i => .imported (i.displace φ)
  | .defined d => .defined (d.displace φ)

theorem add_displace (package : Package) (item : Item) :
    (package.displace φ).add (item.displace φ) = (package.add item).displace φ := by
  cases item <;> simp [Item.displace, add, addImport, addDefinition, Package.displace]

theorem foldl_add_displace (items : List Item) (package : Package) :
    (items.map (Item.displace φ)).foldl add (package.displace φ) =
      (items.foldl add package).displace φ := by
  induction items generalizing package with
  | nil => rfl
  | cons item items ih => rw [List.map_cons, List.foldl_cons, List.foldl_cons, add_displace, ih]

theorem moves_readItemBehind (attributes : List Attribute) :
    Moves φ (Item.displace φ) (readItemBehind attributes) (readItemBehind attributes) := by
  refine .choose fun kind => ?_
  split
  · exact (Import.moves_read _).bind fun _ => .pure rfl
  · exact (Struct.moves_read _).bind fun _ => .pure rfl
  · exact (Struct.moves_read _).bind fun _ => .pure rfl
  · exact (Enumeration.moves_read _).bind fun _ => .pure rfl
  · exact .fail _ _

theorem moves_readItem : Moves φ (Item.displace φ) readItem readItem :=
  Attribute.moves_readAll.bind moves_readItemBehind

theorem moves_read : Moves φ (Package.displace φ) read read :=
  Attribute.moves_readAll.bind fun attributes => (Moves.expect _ _).bind fun keyword =>
    (moves_quoted _).bind fun name => (moves_readItem.untilEnd _ _).bind fun items =>
      .pure (foldl_add_displace items (empty name attributes keyword.location)).symm

end Package

def Tokens.displace (φ : Location → Location) (ts : Tokens) : Tokens :=
  ⟨ts.list.map (Token.displace φ), φ ts.stop⟩

/-- The places in what a source is read as are those of its tokens, and nothing else depends on
them. -/
theorem Package.ofTokens_displace (φ : Location → Location) (ts : Tokens) :
    ofTokens (ts.displace φ) = displaceOutcome φ (Package.displace φ) (ofTokens ts) := by
  unfold ofTokens Tokens.displace
  rw [moves_read ts.stop ts.list]
  cases read ts.stop ts.list <;> rfl

/-- Tokens that differ in nothing but their places. -/
theorem Tokens.displace_eq_of_map_word {ts us : Tokens}
    (h : ts.list.map Token.word = us.list.map Token.word) (place : Location) :
    ts.displace (fun _ => place) = us.displace fun _ => place := by
  have hword (t : Token) :
      t.displace (fun _ => place) = (⟨t.word.1, t.word.2, place⟩ : Token) := rfl
  have hmap (ts : List Token) : ts.map (Token.displace fun _ => place) =
      (ts.map Token.word).map fun w => ⟨w.1, w.2, place⟩ := by
    simp [hword, Function.comp_def]
  rw [Tokens.displace, Tokens.displace, hmap, hmap, h]

/-- Layout put between the tokens of a source, none of them invalid, changes neither the tokens nor
what the source is read as, except for places. -/
theorem Package.parse_of_spaced {text other : String} (h : Spaced text.toList other.toList)
    (source source' : String)
    (hvalid : ∀ t ∈ (Tokens.ofSource text source).list, t.kind ≠ .invalid) :
    (Tokens.ofSource other source').list.map Token.word =
        (Tokens.ofSource text source).list.map Token.word ∧
      ∀ place, displaceOutcome (fun _ => place) (Package.displace fun _ => place)
          (parse other source') =
        displaceOutcome (fun _ => place) (Package.displace fun _ => place) (parse text source) := by
  have hwords : (Tokens.ofSource other source').list.map Token.word =
      (Tokens.ofSource text source).list.map Token.word :=
    h.map_word_cut source source' .start .start hvalid
  refine ⟨hwords, fun place => ?_⟩
  rw [parse, parse, ← ofTokens_displace, ← ofTokens_displace,
    Tokens.displace_eq_of_map_word hwords]

theorem Package.parse_of_spaced_string :
    Spaced "package\"p\"".toList "package // p\n\"p\" ".toList ∧
      (∀ t ∈ (Tokens.ofSource "package\"p\"" "").list, t.kind ≠ .invalid) ∧
      ∀ place, displaceOutcome (fun _ => place) (Package.displace fun _ => place)
          (parse "package // p\n\"p\" " "") =
        displaceOutcome (fun _ => place) (Package.displace fun _ => place)
          (parse "package\"p\"" "") := by
  have hblank : ∀ c ∈ [' '], IsBlank c := by simp [IsBlank]
  have hend : Filler [' '] := .inr (.blanks (by decide) hblank)
  have hlayout : Filler ([' '] ++ '/' :: '/' :: ([' ', 'p'] ++ ['\n'])) :=
    .inr (.comment (by decide) hblank (by decide))
  have hstring : Spaced ['"', 'p', '"'] (['"', 'p', '"'] ++ ([' '] ++ [])) :=
    .lexeme rfl (atToken_cons (by simp) (by decide)) (.inl rfl) hend (.refl [])
  have hnext : Lexeme.next 'p' ['a', 'c', 'k', 'a', 'g', 'e', '"', 'p', '"'] =
      (⟨.packageKeyword, ['p', 'a', 'c', 'k', 'a', 'g', 'e']⟩, ['"', 'p', '"']) := by
    with_unfolding_all rfl
  have hword := Spaced.lexeme hnext (atToken_cons (by simp) (by decide)) (.inl rfl) hlayout hstring
  have hspaced : Spaced "package\"p\"".toList "package // p\n\"p\" ".toList := hword
  have htokens : (Tokens.ofSource "package\"p\"" "").list =
      [⟨.packageKeyword, "package", ⟨0, 1, 1, ""⟩⟩, ⟨.string, "\"p\"", ⟨7, 1, 8, ""⟩⟩] := by
    with_unfolding_all rfl
  have hvalid : ∀ t ∈ (Tokens.ofSource "package\"p\"" "").list, t.kind ≠ .invalid := by
    simp [htokens]
  exact ⟨hspaced, hvalid, (parse_of_spaced hspaced "" "" hvalid).2⟩

end SchemaLang
