import SchemaLang.Proofs.Compilation
import SchemaLang.Proofs.Layout
import SchemaLang.Proofs.Parsing

/-!
# What sources can write

No token of a source goes over the end of a line, and no constant expression is worth NaN.  So the
texts of every package that is read from a source fit on a line and its floats are numbers, and
merging and linking add neither texts nor floats.
-/

namespace SchemaLang

/-- A text that stays on one line. -/
def OneLine (s : String) : Prop :=
  '\n' ∉ s.toList

instance (s : String) : Decidable (OneLine s) :=
  inferInstanceAs (Decidable ('\n' ∉ s.toList))

/-! ### Legible packages -/

/-- An attribute of texts that stay on a line and floats that are numbers. -/
def Attribute.Legible : Attribute → Prop
  | .exportAs name => OneLine name
  | .precision step => step.isNaN = false
  | .range values => values.lower.isNaN = false ∧ values.upper.isNaN = false
  | .message => True
  | .version _ => True

structure Field.Legible (field : Field) : Prop where
  type : ∀ reference ∈ field.type.reference?, OneLine reference.name
  name : OneLine field.name
  attributes : ∀ a ∈ field.attributes, a.Legible

structure Struct.Legible (s : Struct) : Prop where
  name : OneLine s.name
  parent : ∀ name ∈ s.parentName, OneLine name
  fields : ∀ field ∈ s.fields, field.Legible
  attributes : ∀ a ∈ s.attributes, a.Legible

structure Enumeration.Legible (e : Enumeration) : Prop where
  name : OneLine e.name
  enumerals : ∀ enumeral ∈ e.enumerals, OneLine enumeral.name
  attributes : ∀ a ∈ e.attributes, a.Legible

def Definition.Legible : Definition → Prop
  | .struct s => s.Legible
  | .enumeration e => e.Legible

structure Import.Legible (imported : Import) : Prop where
  name : OneLine imported.name
  attributes : ∀ a ∈ imported.attributes, a.Legible

structure Package.Legible (package : Package) : Prop where
  name : OneLine package.name
  imports : ∀ imported ∈ package.imports, imported.Legible
  definitions : ∀ d ∈ package.definitions, d.Legible
  attributes : ∀ a ∈ package.attributes, a.Legible

def Package.Item.Legible : Package.Item → Prop
  | .imported i => i.Legible
  | .defined d => d.Legible

/-! ### Tokens -/

/-- A lexeme stays on its line. -/
theorem Lexeme.not_mem_next {c : Char} (hc : ¬ IsBlank c) (cs : List Char) :
    '\n' ∉ (next c cs).1.text := by
  have hfeed : IsBlank '\n' := by simp [IsBlank]
  by_cases hkind : (next c cs).1.kind = .invalid
  · have hrejected := rejected_next hkind
    generalize (next c cs).1.text = word, (next c cs).2 = rest, htext : c :: cs = text
      at hrejected
    cases hrejected with
    | character hquote =>
        obtain ⟨rfl, -⟩ := List.cons.inj htext
        exact fun hmem => hc (List.mem_singleton.mp hmem ▸ hfeed)
    | quote hline hrest => simpa using hline
  · have hword := isQuoted_or_not_isBlank (wins_next hkind).mem_pattern
    generalize (next c cs).1.text = word at hword
    rcases hword with hquoted | hblank
    · cases hquoted with
      | @intro body hbody =>
          have hline : '\n' ∉ body := fun hmem => absurd (hbody _ hmem) (by decide)
          simpa using hline
    · exact fun hmem => hblank _ hmem hfeed

namespace Tokens

theorem oneLine_of_mem_cut {source : String} {p : Position} {cs : List Char} :
    ∀ t ∈ cut source p cs, OneLine t.literal := by
  fun_induction cut source p cs with
  | case1 => simp
  | case2 p cs ih => exact ih
  | case3 p c cs _ hblank ih => exact ih
  | case4 p c cs _ hblank lexeme ih =>
      refine List.forall_mem_cons.mpr ⟨?_, ih⟩
      have hc : ¬ IsBlank c := fun h => hblank (isBlank_iff.mpr h)
      simpa [OneLine] using Lexeme.not_mem_next hc cs

end Tokens

theorem OneLine.textOf {literal : String} (h : OneLine literal) :
    OneLine (Literal.textOf literal) := by
  intro hmem
  rw [Literal.textOf, String.toList_ofList] at hmem
  exact h (List.mem_of_mem_tail (List.mem_of_mem_dropLast hmem))

/-! ### Rules -/

namespace Grammar

namespace Rule

variable {τ α β : Type} {r : Rule τ α} {Good : α → Prop}

/-- Admissible trees over tokens of one line each mean something good. -/
def Yields (r : Rule τ α) (Good : α → Prop) : Prop :=
  ∀ x, r.Admissible x → (∀ t ∈ r.tokens x, OneLine t.literal) → Good (r.meaning x)

theorem Yields.mono {Fine : α → Prop} (h : r.Yields Good) (himp : ∀ a, Good a → Fine a) :
    r.Yields Fine :=
  fun x hx ht => himp _ (h x hx ht)

theorem yields_terminal (wanted : Token → Bool) :
    (terminal wanted).Yields fun t => OneLine t.literal :=
  fun _ _ ht => ht _ List.mem_cons_self

theorem Yields.map {Fine : β → Prop} {f : α → β} (h : r.Yields fun a => Fine (f a)) :
    (r.map f).Yields Fine :=
  h

theorem Yields.behind (h : r.Yields Good) (kind : TokenKind) : (r.behind kind).Yields Good :=
  fun x hx ht => h x.2 hx fun t hmem => ht t (List.mem_cons_of_mem _ hmem)

theorem Yields.many (h : r.Yields Good) : r.many.Yields fun l => ∀ a ∈ l, Good a := by
  intro l hl ht a ha
  obtain ⟨x, hx, rfl⟩ := List.mem_map.mp ha
  exact h x (hl x hx) fun t hmem => ht t (List.mem_flatMap.mpr ⟨x, hx, hmem⟩)

theorem Yields.listing (h : r.Yields Good) : r.listing.Yields fun l => ∀ a ∈ l, Good a := by
  rintro l ⟨hfirst, hothers⟩ ht
  obtain ⟨htfirst, htrest⟩ := List.forall_mem_append.mp ht
  exact List.forall_mem_cons.mpr ⟨h _ hfirst htfirst,
    (h.behind .comma).many _ hothers (List.forall_mem_append.mp htrest).1⟩

theorem Yields.braced (h : r.Yields Good) : r.braced.Yields fun l => ∀ a ∈ l, Good a :=
  fun x hx ht => h.many x.1 hx (List.forall_mem_append.mp ht).1

theorem Yields.listed (h : r.Yields Good) : r.listed.Yields fun l => ∀ a ∈ l, Good a := by
  rintro ⟨listing, closing⟩ hx ht
  cases listing with
  | none => exact fun a ha => nomatch ha
  | some listing => exact h.listing listing hx (List.forall_mem_append.mp ht).1

end Rule

theorem yields_entry : entry.Yields Attribute.Legible := by
  intro x hx ht
  cases x with
  | message key => trivial
  | exportAs key colon name => exact OneLine.textOf (ht name.1 (by simp [entry]))
  | precision key colon step => exact hx
  | range key colon values => exact ⟨hx.1, hx.2.1⟩
  | version key colon number => trivial

theorem Rule.Yields.group {Good : Attribute → Prop} (h : entry.Yields Good) :
    group.Yields fun l => ∀ a ∈ l, Good a := by
  intro x hx ht
  cases x with
  | single only => exact List.forall_mem_singleton.mpr (h only hx ht)
  | block opening entries => exact h.listed entries hx (List.forall_mem_cons.mp ht).2

/-- What each attribute means by itself, those before a declaration mean together. -/
theorem Rule.Yields.attributes {Good : Attribute → Prop} (h : entry.Yields Good) :
    attributes.Yields fun l => ∀ a ∈ l, Good a :=
  ((h.group.behind .at).many.mono fun _ hgroups _ ha =>
    have ⟨group, hgroup, hmem⟩ := List.mem_flatten.mp ha
    hgroups group hgroup _ hmem).map

theorem yields_attributes : attributes.Yields fun l => ∀ a ∈ l, a.Legible :=
  yields_entry.attributes

/-- Arrays around a type leave its name. -/
theorem reference?_foldl_array (sizes : List ArraySize) (type : FieldType) :
    (sizes.foldl .array type).reference? = type.reference? := by
  induction sizes generalizing type with
  | nil => rfl
  | cons size sizes ih => exact ih _

theorem yields_typed :
    typed.Yields fun type => ∀ reference ∈ type.reference?, OneLine reference.name := by
  intro t _ ht
  have hword : OneLine t.word.1.literal := ht _ List.mem_cons_self
  have harrays : (typed.meaning t).reference? = (FieldType.ofWord t.word.1.literal).reference? :=
    reference?_foldl_array _ _
  rw [harrays, FieldType.ofWord]
  split
  · exact fun _ hnone => nomatch hnone
  · rintro _ ⟨⟩
    exact hword

theorem yields_placedName : placedName.Yields fun named => OneLine named.1 :=
  (Rule.yields_terminal _).map

theorem yields_declaration : declaration.Yields fun l => ∀ field ∈ l, field.Legible := by
  rintro d ⟨hattributes, htype, -⟩ ht field hfield
  obtain ⟨htattributes, ht⟩ := List.forall_mem_append.mp ht
  obtain ⟨httype, ht⟩ := List.forall_mem_append.mp ht
  obtain ⟨htfirst, htothers⟩ := List.forall_mem_append.mp ht
  have hnames : ∀ named ∈ placedName.meaning d.first ::
      (placedName.behind .comma).many.meaning d.others, OneLine named.1 :=
    List.forall_mem_cons.mpr ⟨yields_placedName _ trivial htfirst,
      (yields_placedName.behind .comma).many _ (fun _ _ => trivial) htothers⟩
  obtain ⟨named, hnamed, rfl⟩ := List.mem_map.mp hfield
  exact ⟨yields_typed _ htype httype, hnames named hnamed,
    yields_attributes _ hattributes htattributes⟩

section Decorated

variable {decorated : List Attribute} (hdecorated : ∀ a ∈ decorated, a.Legible)

theorem yields_parentClause :
    parentClause.Yields fun parent => ∀ name ∈ parent, OneLine name := by
  rintro (_ | ⟨colon, name⟩) - ht
  · exact fun _ hnone => nomatch hnone
  · rintro _ ⟨⟩
    exact ht name.1 (by simp [parentClause])

include hdecorated

theorem yields_struct : (struct decorated).Yields Struct.Legible := by
  intro s hs ht
  obtain ⟨-, ht⟩ := List.forall_mem_cons.mp ht
  obtain ⟨hname, ht⟩ := List.forall_mem_cons.mp ht
  obtain ⟨htparent, ht⟩ := List.forall_mem_append.mp ht
  have hfields := yields_declaration.braced _ hs (List.forall_mem_cons.mp ht).2
  refine ⟨hname, yields_parentClause _ trivial htparent, fun field hfield => ?_, hdecorated⟩
  obtain ⟨declared, hdeclared, hmem⟩ := List.mem_flatten.mp hfield
  exact hfields declared hdeclared field hmem

theorem yields_enumeration : (enumeration decorated).Yields Enumeration.Legible := by
  intro e he ht
  obtain ⟨-, ht⟩ := List.forall_mem_cons.mp ht
  obtain ⟨hname, ht⟩ := List.forall_mem_cons.mp ht
  have henumeral : enumeral.Yields fun enumeral => OneLine enumeral.name :=
    (Rule.yields_terminal _).map
  exact ⟨hname, henumeral.listed _ he (List.forall_mem_cons.mp ht).2, hdecorated⟩

theorem yields_imported : (imported decorated).Yields Import.Legible :=
  fun i _ ht => ⟨OneLine.textOf (ht i.name.1 (by simp [imported])), hdecorated⟩

end Decorated

theorem yields_item : item.Yields Package.Item.Legible := by
  rintro ⟨decoration, e⟩ ⟨hattributes, he⟩ ht
  obtain ⟨htattributes, ht⟩ := List.forall_mem_append.mp ht
  have hdecorated := yields_attributes decoration hattributes htattributes
  cases e with
  | imported tree => exact yields_imported hdecorated tree he ht
  | struct tree => exact yields_struct hdecorated tree he ht
  | enumeration tree => exact yields_enumeration hdecorated tree he ht

end Grammar

namespace Package

theorem Legible.add {package : Package} (hpackage : package.Legible) {item : Item}
    (hitem : item.Legible) : (package.add item).Legible := by
  cases item with
  | imported i =>
      exact { hpackage with
        imports := List.forall_mem_append.mpr ⟨hpackage.imports,
          List.forall_mem_singleton.mpr hitem⟩ }
  | defined d =>
      exact { hpackage with
        definitions := List.forall_mem_append.mpr ⟨hpackage.definitions,
          List.forall_mem_singleton.mpr hitem⟩ }

/-- What is added item by item to a legible package is legible. -/
theorem Legible.foldl_add {items : List Item} (hitems : ∀ item ∈ items, item.Legible)
    {package : Package} (hpackage : package.Legible) :
    (items.foldl Package.add package).Legible := by
  induction items generalizing package with
  | nil => exact hpackage
  | cons item items ih =>
      obtain ⟨hitem, hitems⟩ := List.forall_mem_cons.mp hitems
      exact ih hitems (hpackage.add hitem)

end Package

theorem Grammar.yields_package : Grammar.package.Yields Package.Legible := by
  rintro p ⟨hattributes, hitems⟩ ht
  obtain ⟨htattributes, ht⟩ := List.forall_mem_append.mp ht
  obtain ⟨-, ht⟩ := List.forall_mem_cons.mp ht
  obtain ⟨hname, htitems⟩ := List.forall_mem_cons.mp ht
  refine .foldl_add (yields_item.many _ hitems htitems) ⟨hname.textOf, ?_, ?_, ?_⟩
  · exact fun _ hnone => nomatch hnone
  · exact fun _ hnone => nomatch hnone
  · exact yields_attributes _ hattributes htattributes

namespace Package

/-- A package that is parsed is legible. -/
theorem legible_of_parse {text source : String} {parsed : Package}
    (h : parse text source = .ok parsed) : parsed.Legible := by
  obtain ⟨tree, htokens, hadmissible, rfl⟩ := parse_eq_ok_iff.mp h
  exact Grammar.yields_package tree hadmissible (htokens ▸ Tokens.oneLine_of_mem_cut)

/-! ### Merging and linking -/

theorem Legible.append {package fragment : Package} (hpackage : package.Legible)
    (hfragment : fragment.Legible) : (append package fragment).Legible where
  name := hpackage.name
  imports := List.forall_mem_append.mpr ⟨hpackage.imports, hfragment.imports⟩
  definitions := List.forall_mem_append.mpr ⟨hpackage.definitions, hfragment.definitions⟩
  attributes := List.forall_mem_append.mpr ⟨hpackage.attributes, hfragment.attributes⟩

theorem legible_absorb {packages : List Package} (hpackages : ∀ package ∈ packages, package.Legible)
    {fragment : Package} (hfragment : fragment.Legible) :
    ∀ package ∈ absorb packages fragment, package.Legible := by
  induction packages with
  | nil => exact List.forall_mem_singleton.mpr hfragment
  | cons package packages ih =>
      obtain ⟨hpackage, hpackages⟩ := List.forall_mem_cons.mp hpackages
      rw [absorb]
      split
      · exact List.forall_mem_cons.mpr ⟨hpackage.append hfragment, hpackages⟩
      · exact List.forall_mem_cons.mpr ⟨hpackage, ih hpackages⟩

theorem legible_merge {fragments : List Package}
    (h : ∀ fragment ∈ fragments, fragment.Legible) :
    ∀ package ∈ merge fragments, package.Legible := by
  induction fragments using merge_induction with
  | nil => exact fun _ hnone => nomatch hnone
  | step fragments fragment packages ih =>
      obtain ⟨hfragments, hfragment⟩ := List.forall_mem_append.mp h
      exact legible_absorb (ih hfragments) (List.forall_mem_singleton.mp hfragment)

theorem Legible.resolved {package : Package} (h : package.Legible) (table : NameTable) :
    (package.resolved table).Legible := by
  refine { h with definitions := fun d hd => ?_ }
  obtain ⟨d, hmem, rfl⟩ := List.mem_map.mp hd
  have hlegible := h.definitions d hmem
  cases d with
  | enumeration e => exact hlegible
  | struct s =>
      refine ⟨hlegible.name, hlegible.parent, fun field hfield => ?_, hlegible.attributes⟩
      obtain ⟨field, hmem, rfl⟩ := List.mem_map.mp hfield
      have hfield := hlegible.fields field hmem
      refine ⟨fun reference htype => ?_, hfield.name, hfield.attributes⟩
      -- A link leaves the name as it was written.
      rw [Field.reference?_resolved] at htype
      obtain ⟨written, hwritten, rfl⟩ := Option.mem_map.mp htype
      rw [Reference.name_resolved]
      exact hfield.type written hwritten

/-- Packages that are read from sources, merged with others or not, linked or not. -/
inductive FromSources : Package → Prop
  | parsed {text source : String} {package : Package} (h : parse text source = .ok package) :
      FromSources package
  | merged {fragments : List Package} (h : ∀ fragment ∈ fragments, FromSources fragment)
      {package : Package} (hmem : package ∈ merge fragments) : FromSources package
  | linked {packages linked : List Package} (h : ∀ package ∈ packages, FromSources package)
      {table : NameTable} (hlink : link packages table = .ok linked) {package : Package}
      (hmem : package ∈ linked) : FromSources package

theorem FromSources.legible {package : Package} (h : FromSources package) : package.Legible := by
  induction h with
  | parsed h => exact legible_of_parse h
  | merged _ hmem ih => exact legible_merge ih _ hmem
  | @linked packages linked _ table hlink _ hmem ih =>
      obtain ⟨-, rfl⟩ := (succeedsIff_link packages table).of_eq_ok hlink
      obtain ⟨package, hpackage, rfl⟩ := List.mem_map.mp hmem
      exact (ih package hpackage).resolved table

end Package

end SchemaLang
