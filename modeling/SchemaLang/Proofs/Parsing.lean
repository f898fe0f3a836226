import SchemaLang.Proofs.AttributeReading

/-!
# Parsing

The readers of types, fields and packages, each by its rule of the grammar, and from them what the
parser accepts: the token lists that stand under an admissible tree.
-/

namespace SchemaLang

open TokenReader Grammar
open SchemaLang.Expr (termKinds)

theorem TokenReader.reads_simpleName (expected : Expectation) :
    Reads (simpleName expected)
      (Rule.terminal fun t => t.kind = .identifier && !t.literal.toList.contains '.') [] :=
  reads_take _ _

/-! ### Types -/

namespace FieldType

/-- Reads the number between brackets, if there is one. -/
def readNumber : TokenReader ArraySize :=
  choose fun
    | some .integer => do
        let t ← expect .integer .number
        let size ← ofExcept (Literal.toSize t.literal t.location)
        return .fixed size
    | _ => pure .unbounded

theorem readSize_eq : readSize = readNumber >>= fun size =>
    expect .rightBracket .closingBracket >>= fun _ => Pure.pure size := rfl

theorem readNumber_of_notAhead {ts : List Token} (h : NotAhead [.integer] ts) (stop : Location) :
    readNumber stop ts = .ok (.unbounded, ts) := by
  cases ts with
  | nil => rfl
  | cons t ts =>
      have hkind : t.kind ≠ .integer := by simpa using h
      simp only [readNumber, choose, List.head?_cons, Option.map_some]
      generalize t.kind = kind at hkind
      cases kind <;> first | rfl | contradiction

theorem readNumber_cons {t : Token} (h : t.kind = .integer) (stop : Location) (ts : List Token) :
    readNumber stop (t :: ts) =
      (ofExcept (Literal.toSize t.literal t.location) >>= fun size => Pure.pure (.fixed size))
        stop ts := by
  have htake : expect .integer .number stop (t :: ts) = .ok (t, ts) := take_cons (by simpa) _ _ _
  show (match some t.kind with | some .integer => _ | _ => _ : TokenReader ArraySize) stop _ = _
  rw [h]
  exact bind_of_ok htake

theorem reads_readSize : Reads readSize size [] where
  run stop s rest _ := by
    obtain ⟨number, closing⟩ := s
    have hclosing (n : ArraySize) : SucceedsIff
        ((expect .rightBracket .closingBracket >>= fun _ => Pure.pure n) stop (closing.1 :: rest))
        True (n, rest) :=
      .read_after (expect_word closing _ stop rest) (.read_pure n)
    rw [readSize_eq]
    cases number with
    | none =>
        have hnone : NotAhead [.integer] (closing.1 :: rest) := by simp [kind_word closing]
        exact (SucceedsIff.read_after (readNumber_of_notAhead hnone stop)
          (hclosing .unbounded)).congr (by simp [size]) fun _ => rfl
    | some n =>
        have hdigits := Token.isDigits_literal n.2.2 (kind_word n)
        have hsize := Literal.succeedsIff_toSize hdigits n.1.location
        have hnumber : SucceedsIff (readNumber stop (n.1 :: closing.1 :: rest))
            (Decimal.FitsSigned (numberOf n)) (.fixed (numberOf n), closing.1 :: rest) := by
          rw [readNumber_cons (kind_word n)]
          exact hsize.read_ofExcept.read_map _
        exact (hnumber.read_bind fun _ => hclosing _).congr (by simp [size]) fun _ => rfl
  covers {stop ts rest a} hts h := by
    rw [readSize_eq] at h
    obtain ⟨number, mid, hnumber, hrest⟩ := bind_eq_ok h
    by_cases hinteger : NotAhead [.integer] ts
    · rw [readNumber_of_notAhead hinteger] at hnumber
      cases hnumber
      obtain ⟨closing, last, rfl, -, hrest⟩ := split_take hts hrest
      cases hrest
      exact ⟨⟨none, closing⟩, rfl⟩
    · obtain ⟨t, ts, hkind, rfl⟩ := exists_cons_of_ahead hinteger
      rw [List.mem_singleton] at hkind
      obtain ⟨ht, hts⟩ := List.forall_mem_cons.mp hts
      rw [readNumber_cons hkind] at hnumber
      obtain ⟨n, last, hsize, hnumber⟩ := bind_eq_ok hnumber
      obtain ⟨-, rfl⟩ := of_ofExcept hsize
      cases hnumber
      obtain ⟨closing, last, rfl, -, hrest⟩ := split_take hts hrest
      cases hrest
      exact ⟨⟨some ⟨t, by simpa using hkind, ht⟩, closing⟩, rfl⟩

theorem reads_read : Reads read typed [.leftBracket] where
  run stop t rest hrest := by
    have hsizes := (reads_manyAfter reads_readSize (by simp) advances_readSize.keeps).run stop
      t.sizes hrest
    exact .read_after (expect_word t.word _ stop _) (hsizes.read_map _)
  covers hts h := by
    obtain ⟨word, mid, rfl, hmid, h⟩ := split_take hts h
    obtain ⟨sizes, last, _, rfl, -, h⟩ :=
      (reads_manyAfter reads_readSize (by simp) advances_readSize.keeps).split hmid h
    cases h
    exact ⟨⟨word, sizes⟩, rfl⟩

end FieldType

/-! ### Fields -/

namespace Field

theorem reads_readName : Reads readName placedName [] :=
  (reads_simpleName .fieldName).map _

theorem reads_furtherNames : Reads (manyAfter .comma readName advances_readName.keeps)
    (placedName.behind .comma).many [.comma] :=
  reads_manyAfter reads_readName (by decide) _

/-- Several fields are declared if every attribute may decorate them together. -/
theorem succeedsIff_declare (type : FieldType) (names : List (String × Location))
    (attributes : List Attribute) (place : Location) :
    SucceedsIff (declare type names attributes place)
      (1 < names.length → Attribute.AllApply attributes (.fields type))
      (names.map fun (name, here) => ⟨type, name, attributes, here⟩) := by
  unfold declare
  by_cases hone : names.length ≤ 1
  · rw [if_pos hone]
    exact (SucceedsIff.pure _).congr (by simp [Nat.not_lt.mpr hone]) fun _ => rfl
  · rw [if_neg hone]
    have hall := Attribute.succeedsIff_allApplicable attributes (.fields type)
    cases hrun : Attribute.allApplicable attributes (.fields type) with
    | ok u =>
        obtain ⟨hall, -⟩ := hall.of_eq_ok hrun
        exact (SucceedsIff.pure _).congr (by simp [hall]) fun _ => rfl
    | error reason =>
        exact .error fun h => hall.not_of_eq_error hrun (h (Nat.lt_of_not_le hone))

theorem startsWith_typed : StartsWith typed [.identifier] :=
  fun t => ⟨_, _, rfl, by simp [kind_word t.word]⟩

theorem startsWith_placedName : StartsWith placedName [.identifier] :=
  fun t => ⟨_, _, rfl, by simp [(kind_name t).1]⟩

theorem reads_readDeclaration : Reads readDeclaration declaration [.comma] where
  run stop d rest hrest := by
    have htokens : declaration.tokens d ++ rest = Grammar.attributes.tokens d.attributes ++
        (typed.tokens d.type ++ (placedName.tokens d.first ++
          ((placedName.behind .comma).many.tokens d.others ++ rest))) := by
      simp [declaration]
    rw [htokens]
    refine SucceedsIff.congr (P := _ ∧ _ ∧ _ ∧ _ ∧ _)
      (.read_bind (Attribute.reads_readAll.run stop d.attributes
        (startsWith_typed.notAhead (by decide) d.type _)) fun _ =>
      .read_after (here_apply stop _) <|
      .read_bind (FieldType.reads_read.run stop d.type
        (startsWith_placedName.notAhead (by decide) d.first _)) fun _ =>
      .read_bind (reads_readName.run stop d.first (notAhead_none _)) fun _ =>
      .read_bind (reads_furtherNames.run stop d.others hrest) fun _ =>
      (succeedsIff_declare _ _ _ _).read_ofExcept) ?_ fun _ => rfl
    have hnames : (placedName.behind .comma).many.Admissible d.others := fun _ _ => trivial
    have hseveral : 1 < (placedName.meaning d.first ::
        (placedName.behind .comma).many.meaning d.others).length ↔ d.others ≠ [] := by
      cases d.others <;> simp [Rule.many]
    rw [hseveral]
    exact ⟨fun ⟨hattributes, htype, _, _, hall⟩ => ⟨hattributes, htype, hall⟩,
      fun ⟨hattributes, htype, hall⟩ => ⟨hattributes, htype, trivial, hnames, hall⟩⟩
  covers hts h := by
    obtain ⟨attributes, mid, _, rfl, hmid, h⟩ := Attribute.reads_readAll.split hts h
    obtain ⟨place, mid, hplace, h⟩ := bind_eq_ok h
    cases hplace
    obtain ⟨type, mid, _, rfl, hmid, h⟩ := FieldType.reads_read.split hmid h
    obtain ⟨first, mid, _, rfl, hmid, h⟩ := reads_readName.split hmid h
    obtain ⟨others, mid, _, rfl, -, h⟩ := reads_furtherNames.split hmid h
    obtain ⟨-, rfl⟩ := of_ofExcept h
    exact ⟨⟨attributes, type, first, others⟩, by simp [declaration]⟩

/-- A declaration starts with its attributes or its type. -/
theorem startsWith_declaration : StartsWith declaration [.at, .identifier] := by
  intro d
  obtain ⟨attributes, type, first, others⟩ := d
  cases attributes with
  | nil => exact ⟨_, _, rfl, by simp [kind_word type.word]⟩
  | cons x attributes => exact ⟨_, _, rfl, by simp [kind_word x.1]⟩

end Field

/-! ### Packages -/

namespace Struct

theorem reads_readParent : Reads readParent parentClause [.colon] where
  run stop p rest hrest := by
    cases p with
    | none => exact .read_after (accept_of_notAhead hrest stop) (.read_pure none)
    | some x =>
        refine .read_after (accept_cons (kind_word x.1) stop _) ?_
        exact .read_after (expect_word x.2 .parentName stop rest) (.read_pure _)
  covers hts h := by
    obtain ⟨found, mid, haccept, hbehind⟩ := bind_eq_ok h
    obtain ⟨rfl, t, hkind, rfl⟩ | ⟨rfl, rfl⟩ := of_accept haccept
    · obtain ⟨ht, hts⟩ := List.forall_mem_cons.mp hts
      obtain ⟨name, last, rfl, -, hrest⟩ := split_take hts hbehind
      cases hrest
      exact ⟨some (⟨t, by simpa using hkind, ht⟩, name), rfl⟩
    · cases hbehind
      exact ⟨none, rfl⟩

theorem reads_body :
    Reads (untilBrace Field.readDeclaration Field.advances_readDeclaration) declaration.braced [] :=
  reads_untilBrace Field.reads_readDeclaration Field.startsWith_declaration (by decide)
    (by decide) _

theorem reads_read (decorated : List Attribute) : Reads (read decorated) (struct decorated) [] where
  run stop s rest _ := by
    have htokens : (struct decorated).tokens s ++ rest = s.keyword.1 :: s.name.1 ::
        (parentClause.tokens s.parent ++ s.opening.1 ::
          (declaration.braced.tokens s.fields ++ rest)) := by
      simp [struct]
    rw [htokens]
    have hparent : NotAhead [.colon]
        (s.opening.1 :: (declaration.braced.tokens s.fields ++ rest)) := by
      simp [kind_word s.opening]
    refine .read_after (take_cons s.keyword.2.1 _ stop _) ?_
    refine .read_after (take_cons s.name.2.1 _ stop _) ?_
    refine SucceedsIff.congr (P := True ∧ _)
      (.read_bind (reads_readParent.run stop s.parent hparent) fun _ =>
      .read_after (expect_word s.opening _ stop _) <|
      (reads_body.run stop s.fields (notAhead_none _)).read_map _) (by rw [true_and]; rfl)
      fun _ => rfl
  covers hts h := by
    obtain ⟨keyword, mid, rfl, hmid, h⟩ := split_take hts h
    obtain ⟨name, mid, rfl, hmid, h⟩ := split_take hmid h
    obtain ⟨parent, mid, _, rfl, hmid, h⟩ := reads_readParent.split hmid h
    obtain ⟨opening, mid, rfl, hmid, h⟩ := split_take hmid h
    obtain ⟨fields, mid, _, rfl, -, h⟩ := reads_body.split hmid h
    cases h
    exact ⟨⟨keyword, name, parent, opening, fields⟩, by simp [struct]⟩

end Struct

namespace Enumeration

theorem reads_readEnumeral : Reads readEnumeral enumeral [] :=
  (reads_simpleName .enumeralName).map _

theorem startsWith_enumeral : StartsWith enumeral [.identifier] :=
  fun t => ⟨_, _, rfl, by simp [(kind_name t).1]⟩

theorem reads_body :
    Reads (commaSeparated readEnumeral advances_readEnumeral) enumeral.listed [] :=
  reads_commaSeparated reads_readEnumeral startsWith_enumeral (by decide) _ (by decide) (by decide)

theorem reads_read (decorated : List Attribute) :
    Reads (read decorated) (enumeration decorated) [] where
  run stop e rest _ := by
    refine .read_after (expect_word e.keyword _ stop _) ?_
    refine .read_after (take_cons e.name.2.1 _ stop _) ?_
    refine .read_after (expect_word e.opening _ stop _) ?_
    exact (reads_body.run stop e.enumerals (notAhead_none _)).read_map _
  covers hts h := by
    obtain ⟨keyword, mid, rfl, hmid, h⟩ := split_take hts h
    obtain ⟨name, mid, rfl, hmid, h⟩ := split_take hmid h
    obtain ⟨opening, mid, rfl, hmid, h⟩ := split_take hmid h
    obtain ⟨enumerals, mid, _, rfl, -, h⟩ := reads_body.split hmid h
    cases h
    exact ⟨⟨keyword, name, opening, enumerals⟩, rfl⟩

end Enumeration

theorem Import.reads_read (decorated : List Attribute) :
    Reads (read decorated) (imported decorated) [] where
  run stop i rest _ := by
    refine .read_after (expect_word i.keyword _ stop _) ?_
    exact ((reads_quoted _).run stop i.name (notAhead_none rest)).read_map _
  covers hts h := by
    obtain ⟨keyword, mid, rfl, hmid, h⟩ := split_take hts h
    obtain ⟨name, mid, _, rfl, -, h⟩ := (reads_quoted _).split hmid h
    cases h
    exact ⟨⟨keyword, name⟩, rfl⟩

namespace Package

theorem readItemBehind_use {t : Token} (h : t.kind = .useKeyword) (decorated : List Attribute)
    (stop : Location) (ts : List Token) : readItemBehind decorated stop (t :: ts) =
      (Import.read decorated >>= fun i => Pure.pure (.imported i)) stop (t :: ts) := by
  simp only [readItemBehind, choose, List.head?_cons, Option.map_some, h]

theorem readItemBehind_struct {t : Token} (h : t.kind = .classKeyword ∨ t.kind = .structKeyword)
    (decorated : List Attribute) (stop : Location) (ts : List Token) :
    readItemBehind decorated stop (t :: ts) =
      (Struct.read decorated >>= fun s => Pure.pure (.defined (.struct s))) stop (t :: ts) := by
  rcases h with h | h <;>
    simp only [readItemBehind, choose, List.head?_cons, Option.map_some, h]

theorem readItemBehind_enum {t : Token} (h : t.kind = .enumKeyword) (decorated : List Attribute)
    (stop : Location) (ts : List Token) : readItemBehind decorated stop (t :: ts) =
      (Enumeration.read decorated >>= fun e => Pure.pure (.defined (.enumeration e))) stop
        (t :: ts) := by
  simp only [readItemBehind, choose, List.head?_cons, Option.map_some, h]

/-- An item is announced by one of four keywords. -/
theorem readItemBehind_eq_ok {decorated : List Attribute} {stop : Location}
    {ts rest : List Token} {a : Item} (h : readItemBehind decorated stop ts = .ok (a, rest)) :
    ∃ t us, ts = t :: us ∧ (t.kind = .useKeyword ∨
      (t.kind = .classKeyword ∨ t.kind = .structKeyword) ∨ t.kind = .enumKeyword) := by
  cases ts with
  | nil => cases h
  | cons t us =>
      refine ⟨t, us, rfl, ?_⟩
      simp only [readItemBehind, choose, List.head?_cons, Option.map_some] at h
      generalize t.kind = kind at h
      cases kind <;> first | cases h | simp

theorem startsWith_element (decorated : List Attribute) : StartsWith (element decorated)
    [.useKeyword, .classKeyword, .structKeyword, .enumKeyword] := by
  intro e
  cases e with
  | imported tree => exact ⟨_, _, rfl, by simp [kind_word tree.keyword]⟩
  | struct tree =>
      have hkind : tree.keyword.1.kind = .classKeyword ∨ tree.keyword.1.kind = .structKeyword := by
        simpa using tree.keyword.2.1
      exact ⟨_, _, rfl, by rcases hkind with h | h <;> simp [h]⟩
  | enumeration tree => exact ⟨_, _, rfl, by simp [kind_word tree.keyword]⟩

theorem reads_readItemBehind (decorated : List Attribute) :
    Reads (readItemBehind decorated) (element decorated) [] where
  run stop e rest hrest := by
    cases e with
    | imported tree =>
        have hread := ((Import.reads_read decorated).run stop tree hrest).read_map Item.imported
        exact (readItemBehind_use (kind_word tree.keyword) decorated stop _) ▸ hread
    | struct tree =>
        have hkind : tree.keyword.1.kind = .classKeyword ∨
            tree.keyword.1.kind = .structKeyword := by
          simpa using tree.keyword.2.1
        have hread := ((Struct.reads_read decorated).run stop tree hrest).read_map fun s =>
          Item.defined (.struct s)
        exact (readItemBehind_struct hkind decorated stop _) ▸ hread
    | enumeration tree =>
        have hread := ((Enumeration.reads_read decorated).run stop tree hrest).read_map fun e =>
          Item.defined (.enumeration e)
        exact (readItemBehind_enum (kind_word tree.keyword) decorated stop _) ▸ hread
  covers {stop ts rest a} hts h := by
    obtain ⟨t, us, rfl, hkind | hkind | hkind⟩ := readItemBehind_eq_ok h
    · rw [readItemBehind_use hkind] at h
      obtain ⟨tree, mid, _, htokens, -, hrest⟩ := (Import.reads_read decorated).split hts h
      cases hrest
      exact ⟨.imported tree, htokens⟩
    · rw [readItemBehind_struct hkind] at h
      obtain ⟨tree, mid, _, htokens, -, hrest⟩ := (Struct.reads_read decorated).split hts h
      cases hrest
      exact ⟨.struct tree, htokens⟩
    · rw [readItemBehind_enum hkind] at h
      obtain ⟨tree, mid, _, htokens, -, hrest⟩ := (Enumeration.reads_read decorated).split hts h
      cases hrest
      exact ⟨.enumeration tree, htokens⟩

theorem reads_readItem : Reads readItem item [] where
  run stop x rest hrest := by
    have helement : NotAhead (.at :: termKinds)
        ((element (Grammar.attributes.meaning x.1)).tokens x.2 ++ rest) :=
      (startsWith_element _).notAhead (by decide) x.2 rest
    rw [show item.tokens x ++ rest = _ from List.append_assoc _ _ _]
    exact (Attribute.reads_readAll.run stop x.1 helement).read_bind fun _ =>
      (reads_readItemBehind _).run stop x.2 hrest
  covers hts h := by
    obtain ⟨attributes, mid, a, rfl, hmid, h⟩ := Attribute.reads_readAll.split hts h
    obtain ⟨e, rfl⟩ := (reads_readItemBehind _).covers hmid h
    refine ⟨(attributes, e), ?_⟩
    rw [element_tokens a (Grammar.attributes.meaning attributes)]
    exact (List.append_assoc _ _ _).symm

theorem startsWith_item : StartsWith item
    [.at, .useKeyword, .classKeyword, .structKeyword, .enumKeyword] := by
  intro x
  obtain ⟨attributes, e⟩ := x
  cases attributes with
  | nil =>
      obtain ⟨t, ts, htokens, hkind⟩ := startsWith_element [] e
      exact ⟨t, ts, htokens, List.mem_cons_of_mem _ hkind⟩
  | cons y attributes => exact ⟨_, _, rfl, by simp [kind_word y.1]⟩

/-- A source is read if its tree is admissible. -/
theorem succeedsIff_read (stop : Location) (tree : PackageTree) :
    SucceedsIff (read stop (package.tokens tree)) (package.Admissible tree)
      (package.meaning tree, []) := by
  have hkeyword : NotAhead (.at :: termKinds)
      (tree.keyword.1 :: tree.name.1 :: item.many.tokens tree.items) := by
    simp [kind_word tree.keyword, termKinds]
  have hitems := run_untilEnd reads_readItem startsWith_item (by simp) advances_readItem stop
    tree.items
  refine (Attribute.reads_readAll.run stop tree.attributes hkeyword).read_bind fun _ => ?_
  refine .read_after (expect_word tree.keyword _ stop _) ?_
  refine SucceedsIff.congr (P := True ∧ _)
    (.read_bind ((reads_quoted _).run stop tree.name (notAhead_none _)) fun _ =>
      hitems.read_map _) (by rw [true_and]) fun _ => rfl

/-- What is read is a package, up to the last token. -/
theorem covers_read {stop : Location} {ts rest : List Token} {a : Package}
    (hts : ∀ t ∈ ts, t.HasShape) (h : read stop ts = .ok (a, rest)) :
    ∃ tree, ts = package.tokens tree := by
  obtain ⟨attributes, mid, _, rfl, hmid, h⟩ := Attribute.reads_readAll.split hts h
  obtain ⟨keyword, mid, rfl, hmid, h⟩ := split_take hmid h
  obtain ⟨name, mid, _, rfl, hmid, h⟩ := (reads_quoted _).split hmid h
  obtain ⟨items, last, hitems, h⟩ := bind_eq_ok h
  obtain ⟨trees, rfl⟩ := covers_untilEnd reads_readItem advances_readItem hmid hitems
  exact ⟨⟨attributes, keyword, name, trees⟩, rfl⟩

/-- A token list under a tree is parsed if the tree is admissible, as what the tree means. -/
theorem succeedsIff_ofTokens {ts : Tokens} {tree : PackageTree}
    (h : package.tokens tree = ts.list) :
    SucceedsIff (ofTokens ts) (package.Admissible tree) (package.meaning tree) := by
  have hrun : ofTokens ts = read ts.stop ts.list >>= fun x => Pure.pure x.1 := by
    unfold ofTokens
    cases read ts.stop ts.list <;> rfl
  rw [hrun, ← h]
  exact (succeedsIff_read ts.stop tree).map Prod.fst

/-- Whatever is parsed stands under a tree. -/
theorem exists_tree_of_ofTokens {ts : Tokens} (hts : ts.WellShaped) {parsed : Package}
    (h : ofTokens ts = .ok parsed) : ∃ tree, package.tokens tree = ts.list := by
  unfold ofTokens at h
  cases hread : read ts.stop ts.list with
  | error e =>
      rw [hread] at h
      cases h
  | ok x =>
      obtain ⟨tree, htokens⟩ := covers_read hts hread
      exact ⟨tree, htokens.symm⟩

/-- What is parsed is the meaning of an admissible tree over the tokens. -/
theorem ofTokens_eq_ok_iff {ts : Tokens} (hts : ts.WellShaped) {parsed : Package} :
    ofTokens ts = .ok parsed ↔ ∃ tree, package.tokens tree = ts.list ∧
      package.Admissible tree ∧ parsed = package.meaning tree := by
  constructor
  · intro hparsed
    obtain ⟨tree, htokens⟩ := exists_tree_of_ofTokens hts hparsed
    exact ⟨tree, htokens, (succeedsIff_ofTokens htokens).of_eq_ok hparsed⟩
  · rintro ⟨tree, htokens, hadmissible, hmeaning⟩
    exact (succeedsIff_ofTokens htokens parsed).mpr ⟨hadmissible, hmeaning⟩

/-- A source text is parsed as what an admissible tree over its tokens means. -/
theorem parse_eq_ok_iff {text source : String} {parsed : Package} :
    parse text source = .ok parsed ↔ ∃ tree,
      package.tokens tree = (Tokens.ofSource text source).list ∧
      package.Admissible tree ∧ parsed = package.meaning tree :=
  ofTokens_eq_ok_iff (Tokens.wellShaped_ofSource text source)

/-- The parser accepts the token lists that stand under an admissible tree, and no others. -/
theorem ofTokens_succeeds_iff {ts : Tokens} (hts : ts.WellShaped) :
    (∃ parsed, ofTokens ts = .ok parsed) ↔
      ∃ tree, package.tokens tree = ts.list ∧ package.Admissible tree := by
  simp only [ofTokens_eq_ok_iff hts]
  constructor
  · rintro ⟨parsed, tree, htokens, hadmissible, -⟩
    exact ⟨tree, htokens, hadmissible⟩
  · rintro ⟨tree, htokens, hadmissible⟩
    exact ⟨_, tree, htokens, hadmissible, rfl⟩

/-- A source with an empty block of attributes, an array, two fields declared at once and a comma
behind the last name of an enum. -/
theorem ofTokens_succeeds_iff_small :
    ∃ tree, package.tokens tree = (Tokens.ofSource
        "package \"p\" @\x7b\x7d struct S \x7b int[3] x, y \x7d enum E \x7b A, B, \x7d" "").list ∧
      package.Admissible tree :=
  (ofTokens_succeeds_iff (Tokens.wellShaped_ofSource _ _)).mp ⟨_, by with_unfolding_all rfl⟩

end Package

end SchemaLang
