import SchemaLang.Outline.Printer
import SchemaLang.Proofs.Outlines

/-!
# What the printer writes

`Prints` says of a step of the printer that it succeeds, writes given outlines at the level it
finds, and leaves that level as it was.  It holds of a line and of braces around what is printed,
and so it is carried from each node to the nodes above it.
-/

namespace SchemaLang

/-! ### Steps -/

/-- The step writes the outlines at the level of the printer and changes nothing else. -/
def Prints (step : Printing Unit) (os : List Outline) : Prop :=
  ∀ printer : Printer, step printer =
    .ok () ⟨printer.out ++ Outline.renderAll printer.level os, printer.level⟩

theorem Outline.renderAll_append (level : Nat) (os more : List Outline) :
    renderAll level (os ++ more) = renderAll level os ++ renderAll level more := by
  induction os with
  | nil => simp [renderAll]
  | cons o os ih => rw [List.cons_append, renderAll, renderAll, ih, String.append_assoc]

namespace Printer

/-- Behind a step that succeeds, the next one goes on. -/
theorem bind_of_ok {α β : Type} {step : Printing α} {next : α → Printing β} {a : α}
    {printer after : Printer} (h : step printer = .ok a after) :
    (step >>= next) printer = next a after := by
  change EStateM.bind step next printer = _
  rw [EStateM.bind, h]

theorem write_eq (text : String) (printer : Printer) :
    write text printer = .ok () ⟨printer.out ++ text, printer.level⟩ := rfl

theorem indent_eq (level : Nat) (printer : Printer) : indent level printer =
    .ok () ⟨printer.out ++ String.ofList (List.replicate (4 * level) ' '), printer.level⟩ := by
  induction level generalizing printer with
  | zero =>
      rw [Nat.mul_zero, List.replicate_zero, String.ofList_nil, String.append_empty]
      rfl
  | succ level ih =>
      have hblanks : String.ofList (List.replicate (4 * (level + 1)) ' ') =
          "    " ++ String.ofList (List.replicate (4 * level) ' ') := by
        rw [Nat.mul_add, Nat.add_comm, List.replicate_add, String.ofList_append]
        rfl
      rw [indent, bind_of_ok (write_eq _ _), ih, hblanks, String.append_assoc]

end Printer

open Printer

/-- A line is written at the level of the printer. -/
theorem prints_line (text : String) : Prints (line text) [.leaf text] := by
  intro printer
  have hget : (get : Printing Printer) printer = .ok printer printer := rfl
  rw [line, bind_of_ok hget, bind_of_ok (indent_eq _ _), bind_of_ok (write_eq _ _), write_eq]
  simp [Outline.renderAll, Outline.render, Outline.leaf, Outline.indented, String.append_assoc]

namespace Prints

variable {step next : Printing Unit} {os more : List Outline}

/-- What steps write stands one behind the other. -/
theorem bind (h : Prints step os) (hnext : Prints next more) :
    Prints (do step; next) (os ++ more) := by
  intro printer
  rw [bind_of_ok (h printer), hnext, Outline.renderAll_append, String.append_assoc]

theorem skip : Prints (pure ()) [] := by
  intro printer
  simp [Outline.renderAll]
  rfl

/-- What is nested below a line stands one level deeper, and the level behind it is the old one. -/
theorem below (text : String) (h : Prints step os) :
    Prints (do line text; nested step) [.node text os] := by
  intro printer
  rw [bind_of_ok (prints_line text printer), nested, h]
  simp [Outline.renderAll, Outline.render, Outline.leaf, String.append_assoc]

theorem block (h : Prints step os) : Prints (Printer.block step) (Outline.block os) := by
  intro printer
  have hblock := (below "\x7b" h).bind (prints_line "\x7d") printer
  rwa [bind_assoc] at hblock

theorem forM {α : Type} {print : α → Printing Unit} {outline : α → Outline}
    (h : ∀ a, Prints (print a) [outline a]) (l : List α) :
    Prints (l.forM print) (l.map outline) := by
  induction l with
  | nil => exact skip
  | cons a l ih => exact (h a).bind ih

end Prints

/-! ### Nodes -/

/-- What the outline of a package has of a node. -/
def Node.outlines : Node → List Outline
  | .package p => [p.outline]
  | .packageBody p =>
      Outline.block (p.imports.map Import.outline ++ p.definitions.map Definition.outline)
  | .imported i => [i.outline]
  | .struct s => [s.outline]
  | .structBody s => Outline.block (s.fields.map Field.outline)
  | .enumeration e => [e.outline]
  | .enumerationBody e => Outline.block (e.enumerals.map Enumeral.outline)
  | .field f => [f.outline]
  | .fieldType t => [t.outline]
  | .enumeral e => [e.outline]
  | .attribute a => [a.outline]

theorem Attribute.prints (a : Attribute) : Prints a.print [a.outline] :=
  prints_line _

theorem prints_attributes (attributes : List Attribute) :
    Prints (attributes.forM Attribute.print) (attributes.map Attribute.outline) :=
  .forM Attribute.prints attributes

theorem FieldType.prints (type : FieldType) : Prints type.print [type.outline] := by
  induction type with
  | primitive p => exact prints_line _
  | array element size ih => exact .below _ ih
  | named reference => exact prints_line _

theorem Field.prints (field : Field) : Prints field.print [field.outline] :=
  .below _ (field.type.prints.bind (prints_attributes field.attributes))

theorem Struct.prints_body (s : Struct) :
    Prints s.printBody (Outline.block (s.fields.map Field.outline)) :=
  .block (.forM Field.prints s.fields)

theorem Struct.prints (s : Struct) : Prints s.print [s.outline] := by
  have hrest := (prints_line ("Class: " ++ toString s.isClass)).bind
    ((prints_attributes s.attributes).bind s.prints_body)
  unfold Struct.print Struct.outline
  -- Only a struct that extends another has a line for it.
  cases s.parentName with
  | none => exact .below _ hrest
  | some name => exact .below _ ((prints_line _).bind hrest)

theorem Enumeral.prints (enumeral : Enumeral) : Prints enumeral.print [enumeral.outline] :=
  prints_line _

theorem Enumeration.prints_body (e : Enumeration) :
    Prints e.printBody (Outline.block (e.enumerals.map Enumeral.outline)) :=
  .block (.forM Enumeral.prints e.enumerals)

theorem Enumeration.prints (e : Enumeration) : Prints e.print [e.outline] :=
  .below _ ((prints_attributes e.attributes).bind e.prints_body)

theorem Definition.prints (d : Definition) : Prints d.print [d.outline] := by
  cases d with
  | struct s => exact s.prints
  | enumeration e => exact e.prints

theorem Import.prints (imported : Import) : Prints imported.print [imported.outline] :=
  .below _ (prints_attributes imported.attributes)

theorem Package.prints_body (package : Package) :
    Prints package.printBody (Outline.block (package.imports.map Import.outline ++
      package.definitions.map Definition.outline)) :=
  .block ((Prints.forM Import.prints package.imports).bind
    (.forM Definition.prints package.definitions))

theorem Package.prints (package : Package) : Prints package.print [package.outline] :=
  .below _ ((prints_attributes package.attributes).bind package.prints_body)

/-- Every node is printed as it stands in the outline. -/
theorem Node.prints (node : Node) : Prints node.print node.outlines := by
  cases node with
  | package p => exact p.prints
  | packageBody p => exact p.prints_body
  | imported i => exact i.prints
  | struct s => exact s.prints
  | structBody s => exact s.prints_body
  | enumeration e => exact e.prints
  | enumerationBody e => exact e.prints_body
  | field f => exact f.prints
  | fieldType t => exact t.prints
  | enumeral e => exact e.prints
  | «attribute» a => exact a.prints

/-! ### Packages -/

namespace Printer

/-- Where the walk is told not to go below a node, all that happens is what the printer does. -/
theorem enter_visit (node : Node) (below : Printing Unit) :
    Visitor.enter visit node below = node.print := by
  simp [Visitor.enter, visit]

theorem walk_visit (package : Package) : package.walk visit = package.print :=
  enter_visit (.package package) _

theorem foldl_leave_walk (packages : List Package) (printer : Printer) :
    packages.foldl (fun printer package => leave (package.walk visit) printer) printer =
      ⟨printer.out ++ Outline.renderAll printer.level (packages.map Package.outline),
        printer.level⟩ := by
  induction packages generalizing printer with
  | nil => simp [Outline.renderAll]
  | cons package packages ih =>
      have hleave : leave (package.walk visit) printer =
          ⟨printer.out ++ Outline.renderAll printer.level [package.outline], printer.level⟩ := by
        rw [walk_visit, leave, package.prints]
      rw [List.foldl_cons, hleave, ih, String.append_assoc, ← Outline.renderAll_append]
      rfl

/-- The printer writes the text of the outlines. -/
theorem print_eq_outlineText (packages : List Package) :
    print packages = Package.outlineText packages := by
  rw [print, foldl_leave_walk, Package.outlineText, start, String.empty_append]

theorem print_append (packages more : List Package) :
    print (packages ++ more) = print packages ++ print more := by
  simp only [print_eq_outlineText, Package.outlineText, List.map_append, Outline.renderAll_append]

end Printer

/-! ### Lines further to the right -/

/-- The characters of a text with blanks before each of its lines; the first of them starts a line
if it is said to. -/
def indentFrom (blanks : Nat) : Bool → List Char → List Char
  | _, [] => []
  | starts, c :: cs =>
      (if starts then List.replicate blanks ' ' else []) ++ c :: indentFrom blanks (c = '\n') cs

/-- The text with blanks before each of its lines. -/
def indentLines (blanks : Nat) (text : String) : String :=
  String.ofList (indentFrom blanks true text.toList)

theorem indentFrom_false_line (blanks : Nat) {line : List Char} (hline : '\n' ∉ line)
    (rest : List Char) : indentFrom blanks false (line ++ '\n' :: rest) =
      line ++ '\n' :: indentFrom blanks true rest := by
  induction line with
  | nil => simp [indentFrom]
  | cons c cs ih =>
      obtain ⟨hc, hcs⟩ : '\n' ≠ c ∧ '\n' ∉ cs := by simpa using hline
      simp [indentFrom, hc.symm, ih hcs]

/-- The blanks stand before the line, and the next line is a line of its own. -/
theorem indentFrom_true_line (blanks : Nat) {line : List Char} (hline : '\n' ∉ line)
    (rest : List Char) : indentFrom blanks true (line ++ '\n' :: rest) =
      List.replicate blanks ' ' ++ (line ++ '\n' :: indentFrom blanks true rest) := by
  cases line with
  | nil => simp [indentFrom]
  | cons c cs =>
      obtain ⟨hc, hcs⟩ : '\n' ≠ c ∧ '\n' ∉ cs := by simpa using hline
      simp [indentFrom, hc.symm, indentFrom_false_line blanks hcs]

namespace Outline

theorem indentFrom_indented {line : String} (hline : OneLine line) (level more : Nat)
    (rest : List Char) : indentFrom (4 * more) true ((indented level line).toList ++ rest) =
      (indented (level + more) line).toList ++ indentFrom (4 * more) true rest := by
  have hblanks : '\n' ∉ List.replicate (4 * level) ' ' ++ line.toList := by
    simpa [OneLine] using hline
  have hlevels : List.replicate (4 * (level + more)) ' ' =
      List.replicate (4 * more) ' ' ++ List.replicate (4 * level) ' ' := by
    rw [Nat.mul_add, Nat.add_comm, List.replicate_add]
  -- The blanks that the line has already are characters of the line here.
  have hstep := indentFrom_true_line (4 * more) hblanks rest
  simp only [toList_indented, hlevels, List.append_assoc, List.cons_append,
    List.nil_append] at hstep ⊢
  exact hstep

mutual

theorem indentFrom_render (level more : Nat) : {o : Outline} → o.Lined → (rest : List Char) →
    indentFrom (4 * more) true ((render level o).toList ++ rest) =
      (render (level + more) o).toList ++ indentFrom (4 * more) true rest
  | .node line below, .node hline hbelow, rest => by
    have hmore := indentFrom_renderAll (level + 1) more hbelow rest
    rw [toList_render, toList_render, List.append_assoc, List.append_assoc,
      indentFrom_indented hline.oneLine, hmore, Nat.add_right_comm]

theorem indentFrom_renderAll (level more : Nat) : {os : List Outline} → (∀ o ∈ os, o.Lined) →
    (rest : List Char) →
    indentFrom (4 * more) true ((renderAll level os).toList ++ rest) =
      (renderAll (level + more) os).toList ++ indentFrom (4 * more) true rest
  | [], _, rest => by simp [renderAll]
  | o :: os, hall, rest => by
    obtain ⟨ho, hos⟩ := List.forall_mem_cons.mp hall
    rw [toList_renderAll_cons, toList_renderAll_cons, List.append_assoc, List.append_assoc,
      indentFrom_render level more ho, indentFrom_renderAll level more hos]

end

/-- Outlines stand further to the right on a deeper level, and are the same otherwise. -/
theorem renderAll_eq_indentLines {os : List Outline} (h : ∀ o ∈ os, o.Lined) (level : Nat) :
    renderAll level os = indentLines (4 * level) (renderAll 0 os) := by
  have hshift := indentFrom_renderAll 0 level h []
  rw [List.append_nil, Nat.zero_add] at hshift
  rw [indentLines, hshift, ← String.toList_inj]
  simp [indentFrom]

end Outline

/-! ### The balance of levels -/

namespace Node

/-- The names at a node and below it. -/
def names : Node → List String
  | .package p => p.names
  | .packageBody p => p.imports.flatMap Import.names ++ p.definitions.flatMap Definition.names
  | .imported i => i.names
  | .struct s => s.names
  | .structBody s => s.fields.flatMap Field.names
  | .enumeration e => e.names
  | .enumerationBody e => e.enumerals.map Enumeral.name
  | .field f => f.names
  | .fieldType t => t.names
  | .enumeral e => [e.name]
  | .attribute a => a.names

theorem lined_outlines {node : Node} (h : ∀ name ∈ node.names, OneLine name) :
    ∀ o ∈ node.outlines, o.Lined := by
  cases node with
  | package p => exact List.forall_mem_singleton.mpr (Package.lined_outline_of_names h)
  | packageBody p =>
      obtain ⟨himports, hdefinitions⟩ := List.forall_mem_append.mp h
      exact .block (Package.lined_inside himports hdefinitions)
  | imported i => exact List.forall_mem_singleton.mpr (i.lined_outline h)
  | struct s => exact List.forall_mem_singleton.mpr (s.lined_outline h)
  | structBody s => exact .block (.map Field.lined_outline h)
  | enumeration e => exact List.forall_mem_singleton.mpr (e.lined_outline h)
  | enumerationBody e =>
      exact .block (List.forall_mem_map.mpr fun _ hmem =>
        Enumeral.lined_outline (List.forall_mem_map.mp h _ hmem))
  | field f => exact List.forall_mem_singleton.mpr (f.lined_outline h)
  | fieldType t => exact List.forall_mem_singleton.mpr (t.lined_outline h)
  | enumeral e =>
      exact List.forall_mem_singleton.mpr
        (Enumeral.lined_outline (List.forall_mem_singleton.mp h))
  | «attribute» a => exact List.forall_mem_singleton.mpr (a.lined_outline h)

/-- What a printer writes for the node that has written nothing yet and is at the given level. -/
def printed (node : Node) (level : Nat) : String :=
  (leave node.print ⟨"", level⟩).out

theorem printed_eq (node : Node) (level : Nat) :
    node.printed level = Outline.renderAll level node.outlines := by
  rw [printed, leave, node.prints, String.empty_append]

/-- At every node, the printer succeeds, only appends to its text, and leaves the level as it finds
it.  So packages are printed one behind the other, and a node is printed on a deeper level as it is
printed on the first, with four blanks more for each level before every line, if the names below
it fit on a line. -/
theorem print_balanced :
    (∀ (node : Node) (printer : Printer), node.print printer =
      .ok () ⟨printer.out ++ node.printed printer.level, printer.level⟩) ∧
    (∀ packages more : List Package,
      Printer.print (packages ++ more) = Printer.print packages ++ Printer.print more) ∧
    (∀ node : Node, (∀ name ∈ node.names, OneLine name) →
      ∀ level, node.printed level = indentLines (4 * level) (node.printed 0)) := by
  refine ⟨fun node printer => ?_, print_append, fun node hnames level => ?_⟩
  · rw [node.prints, printed_eq]
  · rw [printed_eq, printed_eq, Outline.renderAll_eq_indentLines (lined_outlines hnames)]

/-- A field that holds any number of its like, under a name of its own. -/
def branching : Node :=
  .field ⟨.array (.named (.unlinked "T")) .unbounded, "more", [.exportAs "m"], default⟩

theorem print_balanced_branching :
    (∀ name ∈ branching.names, OneLine name) ∧
      branching.printed 1 = indentLines 4 (branching.printed 0) ∧
      branching.print ⟨"Struct: T\n", 1⟩ = .ok () ⟨"Struct: T\n" ++
        "    Variable: more\n        Array of size ∞. Child type:\n            Type: T\n" ++
        "        Attribute: ExportAs m\n", 1⟩ := by
  have hnames : ∀ name ∈ branching.names, OneLine name := by decide
  refine ⟨hnames, print_balanced.2.2 branching hnames 1, ?_⟩
  rw [print_balanced.1 branching]
  rfl

end Node

end SchemaLang
