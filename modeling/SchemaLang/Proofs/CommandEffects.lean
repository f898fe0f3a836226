import Mathlib
import SchemaLang.Command.Outcome
import SchemaLang.Proofs.FileChanges

/-!
# What a run leaves behind

A run reads first and writes last.  If the sources make no schema, nothing was written; if the
schema was written, one file differs, and unless that file was itself the source, the next run reads
what this one read and finds its work done.
-/

namespace SchemaLang

/-! ### The path of the output -/

namespace Path

theorem splitOn_append_cons {xs ys : List Char} (h : '/' ∉ ys) :
    (xs ++ '/' :: ys).splitOn '/' = xs.splitOn '/' ++ [ys] := by
  have hsplit := @List.splitOnP_append_cons _ (· == '/') xs ys '/' rfl
  rw [List.splitOn, hsplit, ← List.splitOn, ← List.splitOn, List.splitOn_eq_singleton h]

/-- The parts of a text that goes on behind a slash. -/
theorem parts_ofText_append {text : String} {xs : List Char} {name : String}
    (htext : text.toList = xs ++ '/' :: name.toList) (hname : '/' ∉ name.toList) :
    (ofText text).parts = (xs.splitOn '/').map String.ofList ++ [name] := by
  rw [ofText, htext, splitOn_append_cons hname, List.map_append, List.map_singleton,
    String.ofList_toList]

/-- A path with one more part has the parts of the path, save for a slash at its end, and that
part. -/
theorem ofText_joinText (text : String) {name : String} (hname : '/' ∉ name.toList) :
    (ofText (joinText text name)).absolute = (ofText text).absolute ∧
      ∃ front, (ofText (joinText text name)).parts = front ++ [name] ∧
        ((ofText text).parts = front ∨ (ofText text).parts = front ++ [""]) := by
  rcases List.eq_nil_or_concat text.toList with hempty | ⟨xs, c, htext⟩
  · obtain rfl : text = "" := String.toList_eq_nil_iff.mp hempty
    have hjoin : joinText "" name = name := String.empty_append
    have hrelative : name.toList.head? ≠ some '/' :=
      fun hhead => hname (List.mem_of_mem_head? hhead)
    rw [hjoin]
    refine ⟨decide_eq_false hrelative, [], ?_, .inr rfl⟩
    rw [ofText, List.splitOn_eq_singleton hname, List.map_singleton, String.ofList_toList]
    rfl
  -- The text is not empty, so what is joined to it starts as it does.
  have hnonempty : text.isEmpty = false := by
    rw [← Bool.not_eq_true, String.isEmpty_iff]
    rintro rfl
    simp at htext
  by_cases hslash : c = '/'
  · subst hslash
    have hjoin : (joinText text name).toList = xs ++ '/' :: name.toList := by
      rw [joinText, if_pos (by simp [htext]), String.toList_append, htext]
      simp
    refine ⟨?_, _, parts_ofText_append hjoin hname, .inr ?_⟩
    · rw [ofText, ofText, hjoin, htext]
      cases xs <;> rfl
    · exact parts_ofText_append (by simp [htext]) (by simp)
  · have hjoin : (joinText text name).toList = text.toList ++ '/' :: name.toList := by
      rw [joinText, if_neg (by simp [htext, hslash, hnonempty]), String.toList_append,
        String.toList_append, List.append_assoc]
      rfl
    refine ⟨?_, _, parts_ofText_append hjoin hname, .inl rfl⟩
    rw [ofText, ofText, hjoin, htext]
    cases xs <;> rfl

end Path

namespace Language

/-- The file of a form is no source by its name. -/
theorem isSourceName_fileName (language : Language) :
    SourceFile.isSourceName language.fileName = false := by
  cases language <;> decide

theorem not_mem_fileName (language : Language) : '/' ∉ language.fileName.toList := by
  cases language <;> decide

end Language

namespace FileSystem

variable {written : Option (List String)} {system before after : FileSystem}

/-- The place that a path leads to. -/
def placeOf (system : FileSystem) (path : String) : Except FileError (List String) :=
  system.walk (Path.ofText path).absolute (Path.ofText path).parts

/-- The place of a file in a directory, from the path that the two are joined to. -/
theorem locate_joinText {text name last : String} (hname : '/' ∉ name.toList)
    {place : List String} {entries : List (String × FileNode)}
    (h : system.locate (Path.ofText (Path.joinText text name)).absolute
      (Path.ofText (Path.joinText text name)).parts = .ok (place, entries, last)) :
    last = name ∧ system.placeOf text = .ok place := by
  obtain ⟨habsolute, front, hparts, hfront⟩ := Path.ofText_joinText text hname
  obtain ⟨hlast, hwalk, hnode⟩ := locate_eq_ok_iff.mp h
  rw [hparts, List.getLast?_concat] at hlast
  rw [hparts, List.dropLast_concat, habsolute] at hwalk
  refine ⟨(Option.some.inj hlast).symm, ?_⟩
  rw [placeOf]
  rcases hfront with hfront | hfront
  · rw [hfront, hwalk]
  · rw [hfront, walk_append_eq_ok_iff]
    exact ⟨place, hwalk, foldlM_step_slashes hnode (by simp)⟩

/-! ### The sources -/

/-- The places of the files that are read as sources at a path. -/
def sourcePlaces (system : FileSystem) (path : String) : List (List String) :=
  match system.placeOf path with
  | .error _ => []
  | .ok place =>
      match system.root.follow? place with
      | none => []
      | some (.file _) => [place]
      | some (.directory entries) =>
          (FileNode.directory entries).sourceFiles.map fun file => place ++ file.1

/-- A file that is no source by its name is only read if the path leads to it. -/
theorem ne_of_mem_sourcePlaces {path name : String} {place source : List String}
    (hname : SourceFile.isSourceName name = false)
    (hpath : system.placeOf path ≠ .ok (place ++ [name])) (h : source ∈ system.sourcePlaces path) :
    source ≠ place ++ [name] := by
  rw [sourcePlaces] at h
  cases hplace : system.placeOf path with
  | error e => rw [hplace] at h; cases h
  | ok target =>
      rw [hplace] at h hpath
      dsimp only at h
      rcases hnode : system.root.follow? target with _ | (contents | entries)
      · rw [hnode] at h
        cases h
      · rw [hnode, List.mem_singleton] at h
        exact fun hsame => hpath (by rw [← h, hsame])
      · rw [hnode] at h
        obtain ⟨file, hfile, rfl⟩ := List.mem_map.mp h
        obtain ⟨hmem, hholds⟩ := List.mem_filter.mp hfile
        -- The last of the names that lead to a source below a directory is that of a source.
        rintro hsame
        have hlast := congrArg List.getLast? hsame
        rw [List.getLast?_append_of_ne_nil _ (FileNode.ne_nil_of_mem_files hmem),
          List.getLast?_concat] at hlast
        rw [FileNode.holdsSource, hlast, Option.map_some, Option.getD_some, hname] at hholds
        cases hholds

/-- As long as a path does not lead to the file that was written, there are the same sources at
it. -/
theorem Kept.sources (h : Kept written before after) {path : String} {files : List SourceFile}
    (hpath : ∀ place, before.placeOf path = .ok place → some place ≠ written)
    (hfiles : before.sources path = .ok files) : after.sources path = .ok files := by
  rw [FileSystem.sources] at hfiles ⊢
  cases hfind : before.find (.ofText path) with
  | error e => rw [hfind] at hfiles; cases hfiles
  | ok node =>
      rw [hfind] at hfiles
      obtain ⟨hcheck, hempty, place, hwalk, hnode⟩ := find_eq_ok_iff.mp hfind
      rcases node with contents | entries
      · have hsame := h.root.files place (hpath place hwalk)
        rw [Option.bind_some, FileNode.fileAt?_eq_some_iff.mpr hnode,
          FileNode.fileAt?_eq_some_iff] at hsame
        rw [find_eq_ok_iff.mpr ⟨hcheck, hempty, place, h.walk hwalk, hsame⟩]
        exact hfiles
      · obtain ⟨others, hothers, hsame⟩ := h.root.directories place entries hnode
        rw [find_eq_ok_iff.mpr ⟨hcheck, hempty, place, h.walk hwalk, hothers⟩]
        dsimp only at hfiles ⊢
        rw [FileNode.sources_eq, hsame, ← FileNode.sources_eq]
        exact hfiles

end FileSystem

/-! ### Emission -/

namespace Schema

open FileSystem

variable {schema : Schema} {language : Language} {directory : String}
  {system after : FileSystem}

/-- A schema is written once directories are made, if its file can be written. -/
theorem emit_eq_ok_iff {path : String} :
    schema.emit language directory system = (after, .ok path) ↔ ∃ made,
      system.makeDirectories (.ofText directory) = (made, .ok ()) ∧
      made.write (.ofText (Path.joinText directory language.fileName))
        (Package.render schema.packages language).toUTF8 = .ok after ∧
      path = Path.joinText directory language.fileName := by
  rw [emit]
  rcases system.makeDirectories (.ofText directory) with ⟨made, e | u⟩
  · simp
  · dsimp only
    rw [writeText]
    generalize (Package.render schema.packages language).toUTF8 = contents
    cases hwrite : made.write (.ofText (Path.joinText directory language.fileName)) contents with
    | error e => simp [hwrite]
    | ok written => simp [hwrite, eq_comm]

/-- What an emission leaves: one written file, nothing else changed, and a system in which the same
emission has nothing left to do. -/
structure Emitted (schema : Schema) (language : Language) (directory : String)
    (before after : FileSystem) (place : List String) : Prop where
  leads : after.placeOf directory = .ok place
  written : after.root.fileAt? (place ++ [language.fileName]) =
    some (Package.render schema.packages language).toUTF8
  kept : Kept (some (place ++ [language.fileName])) before after
  again : schema.emit language directory after =
    (after, .ok (Path.joinText directory language.fileName))

theorem exists_emitted {path : String}
    (h : schema.emit language directory system = (after, .ok path)) :
    path = Path.joinText directory language.fileName ∧
      ∃ place, schema.Emitted language directory system after place := by
  obtain ⟨made, hmade, hwrite, rfl⟩ := emit_eq_ok_iff.mp h
  refine ⟨rfl, ?_⟩
  obtain ⟨-, place, entries, name, hlocate, -⟩ := write_eq_ok_iff.mp hwrite
  obtain ⟨rfl, hplace⟩ := locate_joinText language.not_mem_fileName hlocate
  have hsource := language.isSourceName_fileName
  have hdirectories : Kept none system made := by
    have hkept := kept_makeDirectories system (.ofText directory)
    rwa [hmade] at hkept
  have hfile := kept_write hlocate hsource hwrite
  refine ⟨place, hfile.walk hplace, FileNode.fileAt?_eq_some_iff.mpr (follow?_write hlocate hwrite),
    (hdirectories.of_none _).trans hfile, ?_⟩
  -- The directory is there, and the file has its bytes.
  have hdirectory : (Path.ofText directory).isEmpty = true ∨
      after.isDirectory (.ofText directory) = true := by
    have hpresent := @isDirectory_of_makeDirectories system (.ofText directory)
    rw [hmade] at hpresent
    exact (hpresent rfl).imp_right hfile.isDirectory
  exact emit_eq_ok_iff.mpr
    ⟨after, makeDirectories_eq_self hdirectory, write_again hlocate hsource hwrite, rfl⟩

end Schema

namespace Command

variable {system before after : FileSystem} {path directory : String} {language : Language}
  {schema : Schema}

/-- The schema at a path is compiled from its sources. -/
theorem build_eq_ok_iff : build system path = .ok schema ↔ ∃ files packages,
    system.sources path = .ok files ∧ files.mapM SourceFile.load = .ok packages ∧
      Schema.compile packages = .ok schema := by
  rw [build, FileSystem.hasNode]
  cases hfind : system.find (.ofText path) with
  | error e => simp [FileSystem.sources, hfind]
  | ok node =>
      dsimp only
      rw [if_pos rfl, Schema.ofPath, Schema.ofPaths]
      simp only [List.mapM_cons, List.mapM_nil, FileSystem.loadPackages, bind_eq_ok_iff,
        mapError_eq_ok_iff]
      constructor
      · rintro ⟨_, ⟨packages, ⟨files, hfiles, hpackages⟩, _, ⟨⟩, ⟨⟩⟩, hcompile⟩
        rw [List.flatten_singleton] at hcompile
        exact ⟨files, packages, hfiles, hpackages, hcompile⟩
      · rintro ⟨files, packages, hfiles, hpackages, hcompile⟩
        refine ⟨[packages], ⟨packages, ⟨files, hfiles, hpackages⟩, [], rfl, rfl⟩, ?_⟩
        rwa [List.flatten_singleton]

/-- As long as a path does not lead to the file that was written, the same schema is built from
it. -/
theorem build_of_kept {written : Option (List String)} (h : FileSystem.Kept written before after)
    (hpath : ∀ place, before.placeOf path = .ok place → some place ≠ written)
    (hbuild : build before path = .ok schema) : build after path = .ok schema := by
  obtain ⟨files, packages, hfiles, hpackages, hcompile⟩ := build_eq_ok_iff.mp hbuild
  exact build_eq_ok_iff.mpr ⟨files, packages, h.sources hpath hfiles, hpackages, hcompile⟩

/-- What a run prints and returns once the schema is written. -/
theorem execute_of_emit {path : String} (hbuild : build system path = .ok schema) {written : String}
    (hemit : schema.emit language directory system = (after, .ok written)) :
    execute system (.run path directory language) =
      ⟨after, 0, "Generated: " ++ written ++ "\n", warningText schema.warnings⟩ := by
  rw [execute, hbuild]
  dsimp only
  rw [hemit]

/-- A run that returns zero has built a schema and written it. -/
theorem exists_emit_of_code_eq_zero
    (h : (execute system (.run path directory language)).code = 0) :
    ∃ schema written, build system path = .ok schema ∧
      schema.emit language directory system =
        ((execute system (.run path directory language)).system, .ok written) := by
  rw [execute] at h ⊢
  cases hbuild : build system path with
  | error message => rw [hbuild] at h; cases h
  | ok schema =>
      rw [hbuild] at h
      dsimp only at h ⊢
      rcases hemit : schema.emit language directory system with ⟨after, e | written⟩
      · rw [hemit] at h; cases h
      · exact ⟨schema, written, rfl, hemit⟩

/-! ### A small source -/

/-- The bytes of a source that declares nothing. -/
def bareSource : ByteArray := "package \"p\"".toUTF8

/-- The package in that source. -/
def barePackage (name : String) : Package := ⟨"p", [], [], [], ⟨0, 1, 1, name⟩⟩

/-- The bytes of its outline. -/
def bareOutline : ByteArray := "Package: p\n    \x7b\n    \x7d\n".toUTF8

/-- A working directory with that source in it. -/
def withSource (name : String) : FileSystem := ⟨.directory [(name, .file bareSource)], []⟩

theorem load_bareSource {name : String} (h : FileSystem.checkPath (.ofText name) = .ok ()) :
    SourceFile.load ⟨name, bareSource⟩ = .ok (barePackage name) := by
  have hread : SourceFile.read ⟨name, bareSource⟩ = .ok "package \"p\"" := by
    rw [SourceFile.read, h]
    cbv
  rw [SourceFile.load, hread]
  cbv

theorem compile_barePackage (name : String) : ∃ schema,
    Schema.compile [barePackage name] = .ok schema ∧ schema.packages = [barePackage name] :=
  ⟨_, by cbv, by cbv⟩

theorem render_barePackage (name : String) :
    (Package.render [barePackage name] .ast).toUTF8 = bareOutline := by
  cbv

theorem build_bareSource {name : String} (h : system.sources path = .ok [⟨name, bareSource⟩])
    (hname : FileSystem.checkPath (.ofText name) = .ok ()) :
    ∃ schema, build system path = .ok schema ∧ schema.packages = [barePackage name] := by
  obtain ⟨schema, hcompile, hpackages⟩ := compile_barePackage name
  refine ⟨schema, build_eq_ok_iff.mpr ⟨_, _, h, ?_, hcompile⟩, hpackages⟩
  rw [List.mapM_cons, load_bareSource hname]
  rfl

/-- A run on that source, with the working directory as its output directory. -/
theorem execute_bareSource {name : String}
    (hsources : system.sources path = .ok [⟨name, bareSource⟩])
    (hname : FileSystem.checkPath (.ofText name) = .ok ())
    (hdirectory : system.isDirectory (.ofText ".") = true)
    (hwrite : system.write (.ofText "./schema.ast") bareOutline = .ok after) :
    (execute system (.run path "." .ast)).system = after ∧
      (execute system (.run path "." .ast)).code = 0 := by
  obtain ⟨schema, hbuild, hpackages⟩ := build_bareSource hsources hname
  have hemit : schema.emit .ast "." system = (after, .ok "./schema.ast") := by
    refine Schema.emit_eq_ok_iff.mpr
      ⟨system, FileSystem.makeDirectories_eq_self (.inr hdirectory), ?_, rfl⟩
    rw [hpackages, render_barePackage]
    exact hwrite
  rw [execute_of_emit hbuild hemit]
  exact ⟨rfl, rfl⟩

theorem load_bareOutline (name : String) :
    ∃ e, SourceFile.load ⟨name, bareOutline⟩ = .error e := by
  rw [SourceFile.load, SourceFile.read]
  cases FileSystem.checkPath (.ofText name) with
  | error cause => exact ⟨_, rfl⟩
  | ok u => exact ⟨_, by cbv⟩

theorem bareOutline_ne_bareSource : bareOutline ≠ bareSource := by
  intro h
  have hsize : bareOutline.size = bareSource.size := congrArg ByteArray.size h
  revert hsize
  cbv
  decide

/-- Where a path leads to the outline, there is nothing to be compiled. -/
theorem code_bareOutline {name : String}
    (h : system.sources path = .ok [⟨name, bareOutline⟩]) :
    (execute system (.run path directory language)).code = 1 := by
  rw [execute]
  cases hbuild : build system path with
  | error message => rfl
  | ok schema =>
      obtain ⟨files, packages, hfiles, hpackages, -⟩ := build_eq_ok_iff.mp hbuild
      obtain ⟨e, he⟩ := load_bareOutline name
      cases h.symm.trans hfiles
      rw [List.mapM_cons, he] at hpackages
      cases hpackages

/-! ### What a run changes -/

/-- A run changes its output only.  If nothing can be compiled, the tree stays as it is and the exit
code is one.  If the run succeeds, the output directory leads to a place, the text of the schema is
in the file of the form there, and no other file is there that was not there before, is gone or has
other bytes.  Unless the input path leads to that very file, none of the sources that were read is
changed, and the same command comes to the same end in the tree it left. -/
theorem run_changes_output_only (system : FileSystem) (path directory : String)
    (language : Language) :
    let outcome := execute system (.run path directory language)
    (∀ message, build system path = .error message →
      outcome.system = system ∧ outcome.code = 1) ∧
    (outcome.code = 0 → ∃ schema place, build system path = .ok schema ∧
      outcome.system.placeOf directory = .ok place ∧
      outcome.system.root.fileAt? (place ++ [language.fileName]) =
        some (Package.render schema.packages language).toUTF8 ∧
      (∀ other, other ≠ place ++ [language.fileName] →
        outcome.system.root.fileAt? other = system.root.fileAt? other) ∧
      (system.placeOf path ≠ .ok (place ++ [language.fileName]) →
        (∀ source ∈ system.sourcePlaces path,
          outcome.system.root.fileAt? source = system.root.fileAt? source) ∧
        outcome.system.sources path = system.sources path ∧
        execute outcome.system (.run path directory language) = outcome)) := by
  refine ⟨fun message hbuild => ?_, fun hcode => ?_⟩
  · rw [execute, hbuild]
    exact ⟨rfl, rfl⟩
  · obtain ⟨schema, written, hbuild, hemit⟩ := exists_emit_of_code_eq_zero hcode
    obtain ⟨rfl, place, hemitted⟩ := Schema.exists_emitted hemit
    have hothers (other : List String) (hother : other ≠ place ++ [language.fileName]) :=
      hemitted.kept.root.files other fun hsame => hother (Option.some.inj hsame)
    refine ⟨schema, place, hbuild, hemitted.leads, hemitted.written, hothers, fun hpath => ?_⟩
    have hinput : ∀ target, system.placeOf path = .ok target →
        some target ≠ some (place ++ [language.fileName]) := by
      rintro target htarget hsame
      exact hpath (htarget.trans (congrArg Except.ok (Option.some.inj hsame)))
    refine ⟨fun source hsource => hothers source ?_, ?_, ?_⟩
    · exact FileSystem.ne_of_mem_sourcePlaces language.isSourceName_fileName hpath hsource
    · obtain ⟨files, -, hfiles, -⟩ := build_eq_ok_iff.mp hbuild
      rw [hfiles, hemitted.kept.sources hinput hfiles]
    · have hagain := build_of_kept hemitted.kept hinput hbuild
      rw [execute_of_emit hagain hemitted.again, ← execute_of_emit hbuild hemit]

/-- Sources may lie in the output directory: a run on that directory leaves them, and the next run
leaves everything. -/
theorem run_changes_output_only_here :
    let outcome := execute (withSource "a.sdl") (.run "." "." .ast)
    outcome.code = 0 ∧
      outcome.system.root.fileAt? ["a.sdl"] = (withSource "a.sdl").root.fileAt? ["a.sdl"] ∧
      execute outcome.system (.run "." "." .ast) = outcome ∧
      (execute (withSource "a.sdl") (.run "b" "." .ast)).system = withSource "a.sdl" := by
  have hsources : (withSource "a.sdl").sources "." = .ok [⟨"./a.sdl", bareSource⟩] := by
    with_unfolding_all rfl
  have hdirectory : (withSource "a.sdl").isDirectory (.ofText ".") = true := by
    with_unfolding_all rfl
  have hwrite : (withSource "a.sdl").write (.ofText "./schema.ast") bareOutline =
      .ok ⟨.directory [("a.sdl", .file bareSource), ("schema.ast", .file bareOutline)], []⟩ := by
    with_unfolding_all rfl
  have hinput : (withSource "a.sdl").placeOf "." = .ok [] := by
    with_unfolding_all rfl
  have hplaces : (withSource "a.sdl").sourcePlaces "." = [["a.sdl"]] := by
    with_unfolding_all rfl
  have hmissing : build (withSource "a.sdl") "b" = .error "path not found" := by
    with_unfolding_all rfl
  have hname : FileSystem.checkPath (.ofText "./a.sdl") = .ok () := by
    with_unfolding_all rfl
  obtain ⟨-, hcode⟩ := execute_bareSource hsources hname hdirectory hwrite
  obtain ⟨-, hok⟩ := run_changes_output_only (withSource "a.sdl") "." "." .ast
  obtain ⟨schema, place, -, -, -, -, hkept⟩ := hok hcode
  have hpath : (withSource "a.sdl").placeOf "." ≠ .ok (place ++ [Language.ast.fileName]) := by
    rw [hinput]
    intro hsame
    exact List.append_ne_nil_of_right_ne_nil place (List.cons_ne_nil _ _)
      (Except.ok.inj hsame).symm
  obtain ⟨hread, -, hagain⟩ := hkept hpath
  refine ⟨hcode, hread ["a.sdl"] ?_, hagain, ?_⟩
  · rw [hplaces]
    exact List.mem_singleton_self _
  · exact ((run_changes_output_only (withSource "a.sdl") "b" "." .ast).1 _ hmissing).1

/-- A source may bear the name of the output: the run takes it for an input and writes over it, and
the next run finds no source in it. -/
theorem run_writes_over_source :
    let outcome := execute (withSource "schema.ast") (.run "schema.ast" "." .ast)
    outcome.code = 0 ∧ ["schema.ast"] ∈ (withSource "schema.ast").sourcePlaces "schema.ast" ∧
      outcome.system.root.fileAt? ["schema.ast"] ≠
        (withSource "schema.ast").root.fileAt? ["schema.ast"] ∧
      (execute outcome.system (.run "schema.ast" "." .ast)).code = 1 := by
  have hsources : (withSource "schema.ast").sources "schema.ast" =
      .ok [⟨"schema.ast", bareSource⟩] := by
    with_unfolding_all rfl
  have hdirectory : (withSource "schema.ast").isDirectory (.ofText ".") = true := by
    with_unfolding_all rfl
  have hwrite : (withSource "schema.ast").write (.ofText "./schema.ast") bareOutline =
      .ok ⟨.directory [("schema.ast", .file bareOutline)], []⟩ := by
    with_unfolding_all rfl
  have hplaces : (withSource "schema.ast").sourcePlaces "schema.ast" = [["schema.ast"]] := by
    with_unfolding_all rfl
  have hname : FileSystem.checkPath (.ofText "schema.ast") = .ok () := by
    with_unfolding_all rfl
  obtain ⟨hsystem, hcode⟩ := execute_bareSource hsources hname hdirectory hwrite
  intro outcome
  refine ⟨hcode, by rw [hplaces]; exact List.mem_singleton_self _, ?_, ?_⟩
  · rw [hsystem]
    exact fun hsame => bareOutline_ne_bareSource (Option.some.inj hsame)
  · have houtline : outcome.system.sources "schema.ast" = .ok [⟨"schema.ast", bareOutline⟩] := by
      rw [hsystem]
      with_unfolding_all rfl
    exact code_bareOutline houtline

end Command

end SchemaLang
