import Mathlib
import SchemaLang.Proofs.CompiledPlaces
import SchemaLang.Proofs.Parsing

/-!
# Fields that are declared at once

Several fields of one type may be declared at once, with their attributes and their type written a
single time.  Declaring them one after another, with the same attributes and the same type before
each of the names, makes the same schema.  Only the name in generated code cannot be given to
several fields: that is refused at once, before anything is linked.
-/

namespace SchemaLang

open Grammar TokenReader
open SchemaLang.Expr (termKinds)

/-! ### Reading in front of what is unknown -/

namespace TokenReader

variable {α β τ : Type}

theorem bind_run_eq_ok_iff {p : TokenReader α} {f : α → TokenReader β} {stop : Location}
    {ts : List Token} {out : β × List Token} :
    (p >>= f) stop ts = .ok out ↔ ∃ a mid, p stop ts = .ok (a, mid) ∧ f a stop mid = .ok out := by
  rw [bind_apply, bind_eq_ok_iff, Prod.exists]

theorem map_run_eq_ok_iff {p : TokenReader α} {f : α → β} {stop : Location}
    {ts rest : List Token} {b : β} :
    (p >>= fun a => Pure.pure (f a)) stop ts = .ok (b, rest) ↔
      ∃ a, p stop ts = .ok (a, rest) ∧ b = f a := by
  rw [bind_run_eq_ok_iff]
  constructor
  · rintro ⟨a, mid, hrun, hpure⟩
    cases hpure
    exact ⟨a, hrun, rfl⟩
  · rintro ⟨a, hrun, rfl⟩
    exact ⟨a, rest, hrun, rfl⟩

variable {p : TokenReader α} {r : Rule τ α} {continuing first : List TokenKind}

/-- A sequence of readers goes on behind a tree that is admissible. -/
theorem Reads.bind_eq_ok_iff (hp : Reads p r continuing) {f : α → TokenReader β}
    {stop : Location} (x : τ) {rest : List Token} (hrest : NotAhead continuing rest)
    {out : β × List Token} :
    (p >>= f) stop (r.tokens x ++ rest) = .ok out ↔
      r.Admissible x ∧ f (r.meaning x) stop rest = .ok out := by
  rw [bind_run_eq_ok_iff]
  constructor
  · rintro ⟨a, mid, hrun, hnext⟩
    obtain ⟨hadmissible, hpair⟩ := (hp.run stop x hrest).of_eq_ok hrun
    obtain ⟨rfl, rfl⟩ := Prod.mk.inj hpair
    exact ⟨hadmissible, hnext⟩
  · rintro ⟨hadmissible, hnext⟩
    exact ⟨_, _, (hp.run stop x hrest _).mpr ⟨hadmissible, rfl⟩, hnext⟩

/-- Behind trees comes a tree of the same kind, or what is behind all of them. -/
theorem notAhead_many (hfirst : StartsWith r first) (hdisjoint : ∀ kind ∈ continuing, kind ∉ first)
    (l : List τ) {rest : List Token} (hrest : NotAhead continuing rest) :
    NotAhead continuing (r.many.tokens l ++ rest) := by
  cases l with
  | nil => exact hrest
  | cons x l =>
      rw [Rule.many_tokens_cons, List.append_assoc]
      exact hfirst.notAhead hdisjoint x _

section Loops

variable (hp : Reads p r continuing) (hfirst : StartsWith r first)

include hp hfirst

/-- A loop that reads a tree where one comes takes trees and goes on behind them. -/
theorem loop_many_eq_ok_iff (hcontinuing : ∀ kind ∈ continuing, kind ∉ first)
    {loop : TokenReader (List α)} {stop : Location}
    (hloop : ∀ (x : τ) (ts : List Token), loop stop (r.tokens x ++ ts) =
      (p >>= fun a => loop >>= fun as => Pure.pure (a :: as)) stop (r.tokens x ++ ts))
    (l : List τ) {rest last : List Token} (hrest : NotAhead continuing rest) {as : List α} :
    loop stop (r.many.tokens l ++ rest) = .ok (as, last) ↔
      r.many.Admissible l ∧ ∃ more, loop stop rest = .ok (more, last) ∧
        as = r.many.meaning l ++ more := by
  induction l generalizing as with
  | nil => simp [Rule.many]
  | cons x l ih =>
      have hnext := notAhead_many hfirst hcontinuing l hrest
      rw [Rule.many_tokens_cons, List.append_assoc, hloop, hp.bind_eq_ok_iff x hnext,
        map_run_eq_ok_iff, Rule.many_admissible_cons, and_assoc]
      refine and_congr_right fun _ => ?_
      constructor
      · rintro ⟨tail, htail, rfl⟩
        obtain ⟨hl, more, hmore, rfl⟩ := ih.mp htail
        exact ⟨hl, more, hmore, rfl⟩
      · rintro ⟨hl, more, hmore, rfl⟩
        exact ⟨_, ih.mpr ⟨hl, more, hmore, rfl⟩, rfl⟩

/-- The loop up to a brace takes trees and goes on behind them. -/
theorem untilBrace_many_eq_ok_iff
    (hdisjoint : ∀ kind ∈ TokenKind.rightBrace :: continuing, kind ∉ first)
    (hadvances : Advances p) {stop : Location} (l : List τ) {rest last : List Token}
    (hrest : NotAhead continuing rest) {as : List α} :
    untilBrace p hadvances stop (r.many.tokens l ++ rest) = .ok (as, last) ↔
      r.many.Admissible l ∧ ∃ more, untilBrace p hadvances stop rest = .ok (more, last) ∧
        as = r.many.meaning l ++ more := by
  obtain ⟨hbrace, hcontinuing⟩ := List.forall_mem_cons.mp hdisjoint
  refine loop_many_eq_ok_iff hp hfirst hcontinuing (fun x ts => ?_) l hrest
  exact untilBrace_of_notAhead (hfirst.notAhead (by simpa using hbrace) x ts)

/-- The loop up to the end takes trees and goes on behind them. -/
theorem untilEnd_many_eq_ok_iff (hcontinuing : ∀ kind ∈ continuing, kind ∉ first)
    (hadvances : Advances p) {stop : Location} (l : List τ) {rest last : List Token}
    (hrest : NotAhead continuing rest) {as : List α} :
    untilEnd p hadvances stop (r.many.tokens l ++ rest) = .ok (as, last) ↔
      r.many.Admissible l ∧ ∃ more, untilEnd p hadvances stop rest = .ok (more, last) ∧
        as = r.many.meaning l ++ more := by
  refine loop_many_eq_ok_iff hp hfirst hcontinuing (fun x ts => untilEnd_of_ne_nil ?_) l hrest
  obtain ⟨t, us, htokens, -⟩ := hfirst x
  simp [htokens]

end Loops

end TokenReader

/-! ### What stands in front of a declaration -/

namespace Grammar

/-- A struct or class with its attributes, up to some of its fields. -/
structure StructOpening where
  attributes : Attributes
  keyword : Terminal fun t => t.kind = .classKeyword || t.kind = .structKeyword
  name : Name
  parent : Option (Word .colon × Word .identifier)
  opening : Word .leftBrace
  fields : List Declaration

namespace StructOpening

def tokens (s : StructOpening) : List Token :=
  Grammar.attributes.tokens s.attributes ++ s.keyword.1 :: s.name.1 ::
    (parentClause.tokens s.parent ++ s.opening.1 :: declaration.many.tokens s.fields)

def Admissible (s : StructOpening) : Prop :=
  Grammar.attributes.Admissible s.attributes ∧ declaration.many.Admissible s.fields

/-- The struct with further fields behind those that are read already. -/
def struct (s : StructOpening) (more : List (List Field)) : Struct :=
  ⟨s.name.1.literal, s.keyword.1.kind = .classKeyword, parentClause.meaning s.parent, none,
    (declaration.many.meaning s.fields ++ more).flatten, Grammar.attributes.meaning s.attributes,
    s.keyword.1.location⟩

end StructOpening

/-- A source up to some fields of a struct or class. -/
structure Opening where
  attributes : Attributes
  keyword : Word .packageKeyword
  name : Word .string
  items : List (Attributes × Element)
  last : StructOpening

namespace Opening

def tokens (o : Opening) : List Token :=
  Grammar.attributes.tokens o.attributes ++ o.keyword.1 :: o.name.1 ::
    (item.many.tokens o.items ++ o.last.tokens)

def Admissible (o : Opening) : Prop :=
  Grammar.attributes.Admissible o.attributes ∧ item.many.Admissible o.items ∧ o.last.Admissible

/-- The package with further fields in its last struct, and further items behind it. -/
def package (o : Opening) (fields : List (List Field)) (items : List Package.Item) : Package :=
  (item.many.meaning o.items ++ .defined (.struct (o.last.struct fields)) :: items).foldl
    Package.add (.empty (Literal.textOf o.name.1.literal)
      (Grammar.attributes.meaning o.attributes) o.keyword.1.location)

end Opening

end Grammar

namespace TokenReader

theorem take_terminal {wanted : Token → Bool} (t : Terminal wanted) (expected : Expectation)
    (stop : Location) (ts : List Token) :
    take wanted expected stop (t.1 :: ts) = .ok (t.1, ts) :=
  take_cons t.2.1 expected stop ts

theorem simpleName_name (t : Name) (expected : Expectation) (stop : Location) (ts : List Token) :
    simpleName expected stop (t.1 :: ts) = .ok (t.1, ts) :=
  take_terminal t expected stop ts

theorem quoted_word (t : Word .string) (expected : Expectation) (stop : Location)
    (ts : List Token) :
    quoted expected stop (t.1 :: ts) = .ok (Literal.textOf t.1.literal, ts) :=
  ((reads_quoted expected).run stop t (notAhead_none ts) _).mpr ⟨trivial, rfl⟩

end TokenReader

/-- The fields of an opened struct are those that are read already and those that come next, up to
the brace. -/
theorem Struct.read_opening_eq_ok_iff (s : StructOpening) {stop : Location}
    (ds : List Grammar.Declaration) {rest last : List Token} (hrest : NotAhead [.comma] rest)
    {a : Struct} :
    read (Grammar.attributes.meaning s.attributes) stop (s.keyword.1 :: s.name.1 ::
        (parentClause.tokens s.parent ++ s.opening.1 ::
          (declaration.many.tokens (s.fields ++ ds) ++ rest))) = .ok (a, last) ↔
      declaration.many.Admissible (s.fields ++ ds) ∧ ∃ more,
        untilBrace Field.readDeclaration Field.advances_readDeclaration stop rest =
            .ok (more, last) ∧ a = s.struct (declaration.many.meaning ds ++ more) := by
  have hparent (ts : List Token) : NotAhead [.colon] (s.opening.1 :: ts) := by
    simp [kind_word s.opening]
  have hbody := @untilBrace_many_eq_ok_iff _ _ _ _ _ _ Field.reads_readDeclaration
    Field.startsWith_declaration (by decide) Field.advances_readDeclaration stop (s.fields ++ ds)
    rest last hrest
  rw [read, bind_of_ok (take_terminal s.keyword _ stop _),
    bind_of_ok (simpleName_name s.name _ stop _),
    Struct.reads_readParent.bind_eq_ok_iff s.parent (hparent _),
    bind_of_ok (expect_word s.opening _ stop _), map_run_eq_ok_iff]
  have hstruct (more : List (List Field)) : s.struct (declaration.many.meaning ds ++ more) =
      ⟨s.name.1.literal, s.keyword.1.kind = .classKeyword, parentClause.meaning s.parent, none,
        (declaration.many.meaning (s.fields ++ ds) ++ more).flatten,
        Grammar.attributes.meaning s.attributes, s.keyword.1.location⟩ := by
    simp [StructOpening.struct, Rule.many]
  constructor
  · rintro ⟨-, fields, hfields, rfl⟩
    obtain ⟨hadmissible, more, hmore, rfl⟩ := hbody.mp hfields
    exact ⟨hadmissible, more, hmore, (hstruct more).symm⟩
  · rintro ⟨hadmissible, more, hmore, rfl⟩
    exact ⟨trivial, _, hbody.mpr ⟨hadmissible, more, hmore, rfl⟩, hstruct more⟩

namespace Package

/-- An opened struct is read with the fields that come next, up to its brace. -/
theorem readItem_opening_eq_ok_iff (s : StructOpening) (ds : List Grammar.Declaration)
    {stop : Location} {rest last : List Token} (hrest : NotAhead [.comma] rest) {i : Item} :
    readItem stop (s.tokens ++ (declaration.many.tokens ds ++ rest)) = .ok (i, last) ↔
      s.Admissible ∧ declaration.many.Admissible ds ∧ ∃ more,
        untilBrace Field.readDeclaration Field.advances_readDeclaration stop rest =
            .ok (more, last) ∧
          i = .defined (.struct (s.struct (declaration.many.meaning ds ++ more))) := by
  have htokens : s.tokens ++ (declaration.many.tokens ds ++ rest) =
      Grammar.attributes.tokens s.attributes ++ (s.keyword.1 :: s.name.1 ::
        (parentClause.tokens s.parent ++ s.opening.1 ::
          (declaration.many.tokens (s.fields ++ ds) ++ rest))) := by
    simp [StructOpening.tokens, Rule.many]
  have hkind : s.keyword.1.kind = .classKeyword ∨ s.keyword.1.kind = .structKeyword := by
    simpa using s.keyword.2.1
  have hkeyword (ts : List Token) : NotAhead (.at :: termKinds) (s.keyword.1 :: ts) := by
    rcases hkind with h | h <;> simp [h, termKinds]
  rw [htokens, readItem, Attribute.reads_readAll.bind_eq_ok_iff s.attributes (hkeyword _),
    readItemBehind_struct hkind, map_run_eq_ok_iff]
  simp only [Struct.read_opening_eq_ok_iff s ds hrest]
  have happend : declaration.many.Admissible (s.fields ++ ds) ↔
      declaration.many.Admissible s.fields ∧ declaration.many.Admissible ds :=
    List.forall_mem_append
  rw [happend, StructOpening.Admissible]
  constructor
  · rintro ⟨hattributes, _, ⟨⟨hfields, hds⟩, more, hmore, rfl⟩, rfl⟩
    exact ⟨⟨hattributes, hfields⟩, hds, more, hmore, rfl⟩
  · rintro ⟨⟨hattributes, hfields⟩, hds, more, hmore, rfl⟩
    exact ⟨hattributes, _, ⟨⟨hfields, hds⟩, more, hmore, rfl⟩, rfl⟩

theorem read_opening_eq_ok_iff (o : Opening) (ds : List Grammar.Declaration)
    {stop : Location} {rest last : List Token} (hrest : NotAhead [.comma] rest)
    {parsed : Package} :
    read stop (o.tokens ++ (declaration.many.tokens ds ++ rest)) = .ok (parsed, last) ↔
      o.Admissible ∧ declaration.many.Admissible ds ∧ ∃ more mid items,
        untilBrace Field.readDeclaration Field.advances_readDeclaration stop rest =
            .ok (more, mid) ∧
          untilEnd readItem advances_readItem stop mid = .ok (items, last) ∧
          parsed = o.package (declaration.many.meaning ds ++ more) items := by
  have hlast (ts : List Token) : o.last.tokens ++ ts ≠ [] := by
    simp [StructOpening.tokens]
  have hkeyword (ts : List Token) : NotAhead (.at :: termKinds) (o.keyword.1 :: ts) := by
    simp [kind_word o.keyword, termKinds]
  rw [Opening.tokens, List.append_assoc, List.cons_append, List.cons_append, List.append_assoc,
    read, Attribute.reads_readAll.bind_eq_ok_iff o.attributes (hkeyword _),
    bind_of_ok (expect_word o.keyword _ stop _), bind_of_ok (quoted_word o.name _ stop _),
    map_run_eq_ok_iff]
  simp only [untilEnd_many_eq_ok_iff reads_readItem startsWith_item (by simp) advances_readItem
    o.items (notAhead_none _), untilEnd_of_ne_nil (hlast _), bind_run_eq_ok_iff (p := readItem),
    map_run_eq_ok_iff, readItem_opening_eq_ok_iff o.last ds hrest]
  constructor
  · rintro ⟨hattributes, _, ⟨hitems, _, ⟨_, mid, ⟨hopening, hds, more, hmore, rfl⟩, items, hrun,
      rfl⟩, rfl⟩, rfl⟩
    exact ⟨⟨hattributes, hitems, hopening⟩, hds, more, mid, items, hmore, hrun, rfl⟩
  · rintro ⟨⟨hattributes, hitems, hopening⟩, hds, more, mid, items, hmore, hrun, rfl⟩
    exact ⟨hattributes, _, ⟨hitems, _, ⟨_, mid, ⟨hopening, hds, more, hmore, rfl⟩, items, hrun,
      rfl⟩, rfl⟩, rfl⟩

end Package

/-! ### One declaration for each name -/

namespace Grammar.Declaration

/-- The declaration of one field with the same attributes and the same type. -/
def single (d : Declaration) (name : Name) : Declaration :=
  { d with first := name, others := [] }

/-- A declaration for each name. -/
def split (d : Declaration) : List Declaration :=
  (d.first :: d.others.map Prod.snd).map d.single

/-- The fields are the same, in the same order and at the same places. -/
theorem flatten_meaning_split (d : Declaration) :
    (declaration.many.meaning d.split).flatten = declaration.meaning d := by
  let field (name : Name) : Field := ⟨typed.meaning d.type, name.1.literal,
    Grammar.attributes.meaning d.attributes, name.1.location⟩
  have hsingle (name : Name) : declaration.meaning (d.single name) = [field name] := rfl
  have htogether : declaration.meaning d = (d.first :: d.others.map Prod.snd).map field := by
    simp [declaration, Rule.many, Rule.behind, placedName, Rule.map, Rule.terminal, field]
  rw [htogether, List.map_eq_flatMap]
  show (((d.first :: d.others.map Prod.snd).map d.single).map declaration.meaning).flatten = _
  rw [List.map_map, ← List.flatMap_def]
  rfl

theorem admissible_split_iff (d : Declaration) : declaration.many.Admissible d.split ↔
    Grammar.attributes.Admissible d.attributes ∧ typed.Admissible d.type := by
  have hsingle (name : Name) : declaration.Admissible (d.single name) ↔
      Grammar.attributes.Admissible d.attributes ∧ typed.Admissible d.type := by
    simp [declaration, single]
  show (∀ x ∈ (d.first :: d.others.map Prod.snd).map d.single, declaration.Admissible x) ↔ _
  rw [List.forall_mem_map]
  simp only [hsingle]
  exact ⟨fun h => h d.first List.mem_cons_self, fun h _ _ => h⟩

end Grammar.Declaration

/-- Several fields may be decorated by what each of them may be decorated by, but for its name in
generated code. -/
theorem Attribute.allApply_fields_iff (attributes : List Attribute) (type : FieldType) :
    AllApply attributes (.fields type) ↔
      (∀ name, .exportAs name ∉ attributes) ∧ AllApply attributes (.field type) := by
  have happlicable (a : Attribute) : a.applicable (.fields type) = .ok () ↔
      (∀ name, a ≠ .exportAs name) ∧ a.applicable (.field type) = .ok () := by
    cases a with
    | exportAs name => simp [applicable]
    | precision step => simp [applicable, Target.type?]
    | range values => simp [applicable, Target.type?]
    | message => simp [applicable]
    | version number => simp [applicable]
  simp only [AllApply, happlicable]
  constructor
  · intro h
    exact ⟨fun name hmem => (h _ hmem).1 name rfl, fun a ha => (h a ha).2⟩
  · rintro ⟨hnone, hall⟩ a ha
    exact ⟨fun name hname => hnone name (hname ▸ ha), hall a ha⟩

namespace Package

theorem ofTokens_eq_ok_iff_read {ts : Tokens} {parsed : Package} :
    ofTokens ts = .ok parsed ↔ ∃ rest, read ts.stop ts.list = .ok (parsed, rest) := by
  unfold ofTokens
  cases read ts.stop ts.list with
  | error e => simp [Except.map]
  | ok x => simp [Except.map, Prod.ext_iff, eq_comm]

/-- Fields that are declared at once are read as those that are declared one after another, unless
an attribute cannot decorate several fields. -/
theorem ofTokens_split_iff (o : Opening) {d : Grammar.Declaration} (hothers : d.others ≠ [])
    {rest : List Token} (hrest : NotAhead [.comma] rest) (stop : Location) {parsed : Package} :
    ofTokens ⟨o.tokens ++ (declaration.tokens d ++ rest), stop⟩ = .ok parsed ↔
      Attribute.AllApply (Grammar.attributes.meaning d.attributes)
          (.fields (typed.meaning d.type)) ∧
        ofTokens ⟨o.tokens ++ (declaration.many.tokens d.split ++ rest), stop⟩ = .ok parsed := by
  have hone : declaration.tokens d ++ rest = declaration.many.tokens [d] ++ rest := by
    simp [Rule.many]
  have hadmissible : declaration.many.Admissible [d] ↔
      Attribute.AllApply (Grammar.attributes.meaning d.attributes)
        (.fields (typed.meaning d.type)) ∧ declaration.many.Admissible d.split := by
    rw [d.admissible_split_iff]
    simp only [Rule.many, List.forall_mem_singleton, declaration]
    tauto
  have hmeaning (more : List (List Field)) : (declaration.many.meaning [d] ++ more).flatten =
      (declaration.many.meaning d.split ++ more).flatten := by
    rw [List.flatten_append, List.flatten_append, d.flatten_meaning_split]
    simp [Rule.many]
  have hpackage (more : List (List Field)) (items : List Item) :
      o.package (declaration.many.meaning [d] ++ more) items =
        o.package (declaration.many.meaning d.split ++ more) items := by
    simp only [List.flatten_append] at hmeaning
    simp only [Opening.package, StructOpening.struct, List.flatten_append, hmeaning]
  rw [hone, ofTokens_eq_ok_iff_read, ofTokens_eq_ok_iff_read]
  simp only [read_opening_eq_ok_iff o _ hrest, hadmissible, hpackage]
  constructor
  · rintro ⟨last, hopening, ⟨hall, hsplit⟩, hmore⟩
    exact ⟨hall, last, hopening, hsplit, hmore⟩
  · rintro ⟨hall, last, hopening, hsplit, hmore⟩
    exact ⟨last, hopening, ⟨hall, hsplit⟩, hmore⟩

theorem mem_definitions_foldl_add {d : Definition} (items : List Item) (package : Package) :
    d ∈ (items.foldl add package).definitions ↔ d ∈ package.definitions ∨ .defined d ∈ items := by
  induction items generalizing package with
  | nil => simp
  | cons i items ih =>
      rw [List.foldl_cons, ih]
      cases i <;> simp [add, addImport, addDefinition, or_assoc]

/-- Where the attributes of a package apply, those of a declaration in it apply to each field. -/
theorem allApply_of_attributesApply {o : Opening} {d : Grammar.Declaration} {rest : List Token}
    (hrest : NotAhead [.comma] rest) {stop : Location} {parsed : Package}
    (hparsed : ofTokens ⟨o.tokens ++ (declaration.many.tokens d.split ++ rest), stop⟩ = .ok parsed)
    (happly : parsed.AttributesApply) :
    Attribute.AllApply (Grammar.attributes.meaning d.attributes)
      (.field (typed.meaning d.type)) := by
  obtain ⟨last, hread⟩ := ofTokens_eq_ok_iff_read.mp hparsed
  obtain ⟨-, -, more, -, items, -, -, rfl⟩ := (read_opening_eq_ok_iff o _ hrest).mp hread
  have hdefinition : .struct (o.last.struct (declaration.many.meaning d.split ++ more)) ∈
      (o.package (declaration.many.meaning d.split ++ more) items).definitions :=
    (mem_definitions_foldl_add _ _).mpr (.inr (by simp))
  have hfirst : (⟨typed.meaning d.type, d.first.1.literal, Grammar.attributes.meaning d.attributes,
      d.first.1.location⟩ : Field) ∈
        (o.last.struct (declaration.many.meaning d.split ++ more)).fields := by
    show _ ∈ (declaration.many.meaning o.last.fields ++
      (declaration.many.meaning d.split ++ more)).flatten
    rw [List.flatten_append, List.flatten_append, d.flatten_meaning_split]
    exact List.mem_append_right _ (List.mem_append_left _ List.mem_cons_self)
  exact (happly.2.2 _ hdefinition).2 _ hfirst

end Package

/-! ### Whole schemas -/

/-- Outcomes that agree but for places succeed together. -/
theorem exists_eq_ok_of_displaceOutcome_eq {α β : Type} {φ : Location → Location} {f : α → β}
    {run other : Except SyntaxError α} (h : displaceOutcome φ f run = displaceOutcome φ f other)
    {a : α} (hrun : run = .ok a) : ∃ b, other = .ok b ∧ f a = f b := by
  subst hrun
  cases other with
  | error e => cases h
  | ok b => exact ⟨b, rfl, Except.ok.inj h⟩

namespace Schema

/-- The schema is what sources make that are parsed, each under its name, and then compiled. -/
def Compiles (sources : List (String × String)) (schema : Schema) : Prop :=
  ∃ fragments, sources.mapM (fun source => Package.parse source.1 source.2) = .ok fragments ∧
    compile fragments = .ok schema

theorem compiles_iff {before after : List (String × String)} {text source : String}
    {schema : Schema} : Compiles (before ++ (text, source) :: after) schema ↔
      ∃ front fragment back,
        before.mapM (fun source => Package.parse source.1 source.2) = .ok front ∧
        Package.parse text source = .ok fragment ∧
        after.mapM (fun source => Package.parse source.1 source.2) = .ok back ∧
        compile (front ++ fragment :: back) = .ok schema := by
  simp only [Compiles, List.mapM_append, List.mapM_cons, bind_eq_ok_iff]
  constructor
  · rintro ⟨_, ⟨front, hfront, _, ⟨fragment, hfragment, back, hback, hcons⟩, happend⟩, hcompile⟩
    cases hcons
    cases happend
    exact ⟨front, fragment, back, hfront, hfragment, hback, hcompile⟩
  · rintro ⟨front, fragment, back, hfront, hfragment, hback, hcompile⟩
    exact ⟨_, ⟨front, hfront, _, ⟨fragment, hfragment, back, hback, rfl⟩, rfl⟩, hcompile⟩

/-- Sources in which several fields are declared at once make the schema that the same sources make
with these fields declared one after another, except that places differ.  They make none if the
fields together are given a name in generated code. -/
theorem compiles_split_iff {before after : List (String × String)}
    {text splitText source splitSource : String} {o : Opening} {d : Grammar.Declaration}
    {rest : List Token} (hothers : d.others ≠ []) (hrest : NotAhead [.comma] rest)
    (htext : (Tokens.ofSource text source).list = o.tokens ++ (declaration.tokens d ++ rest))
    (hsplit : (Tokens.ofSource splitText splitSource).list.map Token.word =
      (o.tokens ++ (declaration.many.tokens d.split ++ rest)).map Token.word) :
    ((∃ schema, Compiles (before ++ (text, source) :: after) schema) ↔
      (∀ name, .exportAs name ∉ attributes.meaning d.attributes) ∧
        ∃ schema, Compiles (before ++ (splitText, splitSource) :: after) schema) ∧
    ∀ schema other, Compiles (before ++ (text, source) :: after) schema →
      Compiles (before ++ (splitText, splitSource) :: after) other →
      ∀ place, schema.packages.map (Package.displace fun _ => place) =
        other.packages.map (Package.displace fun _ => place) := by
  let stop := (Tokens.ofSource text source).stop
  have htogether : Tokens.ofSource text source =
      ⟨o.tokens ++ (declaration.tokens d ++ rest), stop⟩ := by
    rw [← htext]
  have hparse (fragment : Package) : Package.parse text source = .ok fragment ↔
      Attribute.AllApply (attributes.meaning d.attributes) (.fields (typed.meaning d.type)) ∧
        Package.ofTokens ⟨o.tokens ++ (declaration.many.tokens d.split ++ rest), stop⟩ =
          .ok fragment := by
    rw [Package.parse, htogether, Package.ofTokens_split_iff o hothers hrest]
  have happart (place : Location) :
      displaceOutcome (fun _ => place) (Package.displace fun _ => place)
          (Package.ofTokens ⟨o.tokens ++ (declaration.many.tokens d.split ++ rest), stop⟩) =
        displaceOutcome (fun _ => place) (Package.displace fun _ => place)
          (Package.parse splitText splitSource) := by
    rw [Package.parse, ← Package.ofTokens_displace, ← Package.ofTokens_displace,
      Tokens.displace_eq_of_map_word hsplit.symm]
  have hdisplace {place : Location} {fragment other : Package} (front back : List Package)
      (h : fragment.displace (fun _ => place) = other.displace fun _ => place) :
      (front ++ fragment :: back).map (Package.displace fun _ => place) =
        (front ++ other :: back).map (Package.displace fun _ => place) := by
    rw [List.map_append, List.map_append, List.map_cons, List.map_cons, h]
  simp only [compiles_iff, hparse, Attribute.allApply_fields_iff]
  refine ⟨⟨?_, ?_⟩, ?_⟩
  · rintro ⟨schema, front, fragment, back, hfront, ⟨⟨hnone, -⟩, hfragment⟩, hback, hcompile⟩
    obtain ⟨other, hother, hsame⟩ :=
      exists_eq_ok_of_displaceOutcome_eq (happart stop) hfragment
    obtain ⟨schema, hcompile⟩ :=
      (exists_compile_iff_of_displace_eq (hdisplace front back hsame)).mp ⟨_, hcompile⟩
    exact ⟨hnone, schema, front, other, back, hfront, hother, hback, hcompile⟩
  · rintro ⟨hnone, schema, front, other, back, hfront, hother, hback, hcompile⟩
    obtain ⟨fragment, hfragment, hsame⟩ :=
      exists_eq_ok_of_displaceOutcome_eq (happart stop).symm hother
    obtain ⟨schema, hcompile⟩ :=
      (exists_compile_iff_of_displace_eq (hdisplace front back hsame)).mp ⟨_, hcompile⟩
    -- What linking asks of each field is what is left to be asked of all of them.
    have happly := ((succeedsIff_compile _).of_eq_ok hcompile).1.attributes
    rw [Package.forall_mem_merge_iff Package.attributesApply_append] at happly
    have heach := Package.allApply_of_attributesApply hrest hfragment
      (happly fragment (List.mem_append_right _ List.mem_cons_self))
    exact ⟨schema, front, fragment, back, hfront, ⟨⟨hnone, heach⟩, hfragment⟩, hback, hcompile⟩
  · rintro schema other ⟨front, fragment, back, hfront, ⟨-, hfragment⟩, hback, hcompile⟩
      ⟨front', fragment', back', hfront', hfragment', hback', hcompile'⟩ place
    cases hfront.symm.trans hfront'
    cases hback.symm.trans hback'
    obtain ⟨same, hsame, hplaces⟩ :=
      exists_eq_ok_of_displaceOutcome_eq (happart place) hfragment
    cases hsame.symm.trans hfragment'
    exact packages_displace_eq (hdisplace front back hplaces) hcompile hcompile'

section Pair

/-- The start of a source, up to the brace of a class. -/
def pairOpening : Opening where
  attributes := []
  keyword := wordAt 0 .packageKeyword "package" trivial
  name := wordAt 8 .string "\"q\""
    (@Lexeme.IsQuoted.intro ['q'] (by simp [Lexeme.isQuotable]))
  items := []
  last := {
    attributes := []
    keyword := ⟨tokenAt 12 .classKeyword "class", rfl, trivial⟩
    name := ⟨tokenAt 18 .identifier "T", by decide, trivial⟩
    parent := none
    opening := wordAt 20 .leftBrace "\x7b" trivial
    fields := [] }

/-- Two fields of one type. -/
def pair : Grammar.Declaration where
  attributes := []
  type := ⟨wordAt 22 .identifier "int" trivial, []⟩
  first := ⟨tokenAt 26 .identifier "a", by decide, trivial⟩
  others := [(wordAt 27 .comma "," trivial,
    ⟨tokenAt 29 .identifier "b", by decide, trivial⟩)]

/-- A class of two fields is the same whether they are declared at once or not. -/
theorem compiles_split_iff_pair : ∃ schema other,
    Compiles [("package \"q\" class T \x7b int a, b \x7d", "")] schema ∧
      Compiles [("package \"q\" class T \x7b int a int b \x7d", "")] other ∧
      ∀ place, schema.packages.map (Package.displace fun _ => place) =
        other.packages.map (Package.displace fun _ => place) := by
  have htext : (Tokens.ofSource "package \"q\" class T \x7b int a, b \x7d" "").list =
      pairOpening.tokens ++ (declaration.tokens pair ++ [tokenAt 31 .rightBrace "\x7d"]) := by
    with_unfolding_all rfl
  have hsplit : (Tokens.ofSource "package \"q\" class T \x7b int a int b \x7d" "").list.map
      Token.word = (pairOpening.tokens ++ (declaration.many.tokens pair.split ++
        [tokenAt 31 .rightBrace "\x7d"])).map Token.word := by
    with_unfolding_all rfl
  let apart : Package := ⟨"q", [], [.struct ⟨"T", true, none, none,
    [⟨.primitive .integer32, "a", [], ⟨26, 1, 27, ""⟩⟩,
      ⟨.primitive .integer32, "b", [], ⟨32, 1, 33, ""⟩⟩], [], ⟨12, 1, 13, ""⟩⟩], [],
    ⟨0, 1, 1, ""⟩⟩
  have hparse : [("package \"q\" class T \x7b int a int b \x7d", "")].mapM
      (fun source => Package.parse source.1 source.2) = .ok [apart] := by
    with_unfolding_all rfl
  have hother : Compiles [("package \"q\" class T \x7b int a int b \x7d", "")]
      (resolved [apart]) :=
    ⟨[apart], hparse, by cbv⟩
  have hothers : pair.others ≠ [] := List.cons_ne_nil _ _
  have hbrace : NotAhead [.comma] [tokenAt 31 .rightBrace "\x7d"] := by simp [tokenAt]
  obtain ⟨hiff, hplaces⟩ :=
    @compiles_split_iff [] [] _ _ _ _ _ _ _ hothers hbrace htext hsplit
  obtain ⟨schema, hschema⟩ := hiff.mpr ⟨fun _ => List.not_mem_nil, _, hother⟩
  exact ⟨schema, _, hschema, hother, hplaces _ _ hschema hother⟩

end Pair

end Schema

end SchemaLang
