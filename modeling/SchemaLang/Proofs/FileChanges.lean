import Mathlib.Data.List.DropRight
import SchemaLang.Proofs.FileTree
import SchemaLang.Proofs.Success

/-!
# What operations on files change

Each operation that succeeds changes one place: it makes a directory where nothing was, or writes
one file.  `FileSystem.Kept` says that nothing else changed.  Paths that led somewhere lead there
still, so that operations that succeeded may be repeated: they find what they made.
-/

namespace SchemaLang

namespace FileSystem

/-- Two file systems of one working directory, with what is kept from one tree to the other. -/
structure Kept (written : Option (List String)) (before after : FileSystem) : Prop where
  workingDirectory : after.workingDirectory = before.workingDirectory
  root : FileNode.Kept written (some before.root) after.root

variable {written : Option (List String)} {system before after made : FileSystem}

/-! ### Steps -/

theorem entry_eq_ok_iff {entries : List (String × FileNode)} {name : String}
    {node : Option FileNode} :
    entry? entries name = .ok node ↔
      name.utf8ByteSize ≤ nameLimit ∧ entries.lookup name = node := by
  unfold entry?
  split_ifs with hlimit
  · simp [hlimit]
  · simp [Nat.le_of_not_lt hlimit]

/-- A step is taken from a directory: it stays there, leads up or leads to an entry. -/
theorem step_eq_ok_iff {place next : List String} {part : String} :
    system.step place part = .ok next ↔ ∃ entries,
      system.root.follow? place = some (.directory entries) ∧
      ((part = "" ∨ part = ".") ∧ next = place ∨
        part = ".." ∧ next = place.dropLast ∨
        part ≠ "" ∧ part ≠ "." ∧ part ≠ ".." ∧ part.utf8ByteSize ≤ nameLimit ∧
          (entries.lookup part).isSome = true ∧ next = place ++ [part]) := by
  rw [step]
  rcases system.root.follow? place with _ | (contents | entries)
  · simp
  · simp
  simp only [Option.some.injEq, FileNode.directory.injEq, exists_eq_left']
  split_ifs with hstay hup
  · rcases hstay with rfl | rfl <;> simp [eq_comm (a := next)]
  · simp [hup, eq_comm (a := next)]
  · unfold entry?
    rw [not_or] at hstay
    split_ifs with hlimit
    · simp [hstay, hup, hlimit]
    · cases entries.lookup part <;>
        simp [hstay, hup, Nat.le_of_not_lt hlimit, eq_comm (a := next)]

namespace Kept

theorem refl (written : Option (List String)) (system : FileSystem) : Kept written system system :=
  ⟨rfl, .refl written system.root⟩

theorem trans {a b c : FileSystem} (hab : Kept written a b) (hbc : Kept written b c) :
    Kept written a c :=
  ⟨hbc.workingDirectory.trans hab.workingDirectory, hab.root.trans hbc.root⟩

theorem of_none (h : Kept none before after) (written : Option (List String)) :
    Kept written before after :=
  ⟨h.workingDirectory, h.root.of_none written⟩

/-! ### Paths -/

/-- An entry of a directory is still there. -/
theorem lookup (h : Kept written before after) {place : List String}
    {entries others : List (String × FileNode)}
    (hbefore : before.root.follow? place = some (.directory entries))
    (hafter : after.root.follow? place = some (.directory others)) {name : String}
    (hname : (entries.lookup name).isSome = true) : (others.lookup name).isSome = true := by
  have hpresent := h.root.present (place ++ [name])
  rw [Option.bind_some, FileNode.follow?_append_singleton hbefore,
    FileNode.follow?_append_singleton hafter] at hpresent
  exact hpresent hname

/-- A step that can be taken leads to where it led. -/
theorem step (h : Kept written before after) {place next : List String} {part : String}
    (hstep : before.step place part = .ok next) : after.step place part = .ok next := by
  obtain ⟨entries, hbefore, htaken⟩ := step_eq_ok_iff.mp hstep
  obtain ⟨others, hafter, -⟩ := h.root.directories place entries hbefore
  refine step_eq_ok_iff.mpr ⟨others, hafter, htaken.imp_right (.imp_right ?_)⟩
  rintro ⟨hempty, hdot, hup, hlimit, hentry, hnext⟩
  exact ⟨hempty, hdot, hup, hlimit, h.lookup hbefore hafter hentry, hnext⟩

/-- Any number of steps. -/
theorem steps (h : Kept written before after) {parts : List String} {start place : List String}
    (hsteps : parts.foldlM before.step start = .ok place) :
    parts.foldlM after.step start = .ok place := by
  induction parts generalizing start with
  | nil => exact hsteps
  | cons part parts ih =>
      rw [List.foldlM_cons, bind_eq_ok_iff] at hsteps ⊢
      obtain ⟨next, hstep, hrest⟩ := hsteps
      exact ⟨next, h.step hstep, ih hrest⟩

theorem walk (h : Kept written before after) {absolute : Bool} {parts place : List String}
    (hwalk : before.walk absolute parts = .ok place) : after.walk absolute parts = .ok place := by
  rw [FileSystem.walk] at hwalk ⊢
  rw [h.workingDirectory]
  exact h.steps hwalk

end Kept

/-! ### Finding -/

/-- What is found at a path is what its parts lead to. -/
theorem find_eq_ok_iff {path : Path} {node : FileNode} :
    system.find path = .ok node ↔ checkPath path = .ok () ∧ path.isEmpty = false ∧
      ∃ place, system.walk path.absolute path.parts = .ok place ∧
        system.root.follow? place = some node := by
  rw [find]
  cases checkPath path with
  | error e => simp
  | ok u =>
      cases path.isEmpty with
      | true => simp
      | false =>
          cases system.walk path.absolute path.parts with
          | error e => simp
          | ok place =>
              cases hnode : system.root.follow? place <;> simp [hnode]

theorem isDirectory_iff {path : Path} :
    system.isDirectory path = true ↔ ∃ entries, system.find path = .ok (.directory entries) := by
  rw [isDirectory]
  rcases system.find path with e | (contents | entries) <;> simp

theorem Kept.isDirectory (h : Kept written before after) {path : Path}
    (hpath : before.isDirectory path = true) : after.isDirectory path = true := by
  obtain ⟨entries, hfind⟩ := isDirectory_iff.mp hpath
  obtain ⟨hcheck, hempty, place, hwalk, hnode⟩ := find_eq_ok_iff.mp hfind
  obtain ⟨others, hothers, -⟩ := h.root.directories place entries hnode
  exact isDirectory_iff.mpr ⟨others, find_eq_ok_iff.mpr
    ⟨hcheck, hempty, place, h.walk hwalk, hothers⟩⟩

theorem locate_eq_ok_iff {absolute : Bool} {parts place : List String}
    {entries : List (String × FileNode)} {name : String} :
    system.locate absolute parts = .ok (place, entries, name) ↔ parts.getLast? = some name ∧
      system.walk absolute parts.dropLast = .ok place ∧
      system.root.follow? place = some (.directory entries) := by
  rw [locate]
  cases parts.getLast? with
  | none => simp
  | some last =>
      cases system.walk absolute parts.dropLast with
      | error e => simp
      | ok target =>
          constructor
          · intro h
            dsimp only at h
            rcases hnode : system.root.follow? target with _ | (contents | inside) <;>
              rw [hnode] at h <;> cases h
            exact ⟨rfl, rfl, hnode⟩
          · rintro ⟨hlast, htarget, hnode⟩
            cases hlast
            cases htarget
            dsimp only
            rw [hnode]

theorem Kept.locate (h : Kept written before after) {absolute : Bool} {parts place : List String}
    {entries : List (String × FileNode)} {name : String}
    (hlocate : before.locate absolute parts = .ok (place, entries, name)) :
    ∃ others, after.locate absolute parts = .ok (place, others, name) := by
  obtain ⟨hlast, hwalk, hnode⟩ := locate_eq_ok_iff.mp hlocate
  obtain ⟨others, hothers, -⟩ := h.root.directories place entries hnode
  exact ⟨others, locate_eq_ok_iff.mpr ⟨hlast, h.walk hwalk, hothers⟩⟩

/-! ### Making a directory -/

/-- Slashes at the end are left out, and nothing else. -/
theorem exists_withoutSlashes (parts : List String) : ∃ slashes : List String,
    parts = withoutSlashes parts ++ slashes ∧ (∀ part ∈ slashes, part = "") ∧
      (withoutSlashes parts).getLast? ≠ some "" := by
  refine ⟨parts.rtakeWhile String.isEmpty, List.rdropWhile_append_rtakeWhile.symm, ?_, ?_⟩
  · exact fun part hpart => String.isEmpty_iff.mp (List.mem_rtakeWhile_imp hpart)
  · intro hlast
    have hne : withoutSlashes parts ≠ [] := fun hnil => by rw [hnil] at hlast; cases hlast
    rw [List.getLast?_eq_some_getLast hne] at hlast
    refine List.rdropWhile_last_not String.isEmpty parts hne ?_
    exact String.isEmpty_iff.mpr (Option.some.inj hlast)

/-- What making a directory does if it succeeds. -/
theorem makeDirectory_eq_ok {path : Path} (h : system.makeDirectory path = .ok made) :
    checkPath path = .ok () ∧ path.isEmpty = false ∧ ∃ place entries name,
      system.locate path.absolute (withoutSlashes path.parts) = .ok (place, entries, name) ∧
      name ≠ "." ∧ name ≠ ".." ∧ entry? entries name = .ok none ∧
      made = { system with
        root := FileNode.set (place ++ [name]) (.directory []) system.root } := by
  rw [makeDirectory] at h
  cases hcheck : checkPath path with
  | error e => rw [hcheck] at h; cases h
  | ok u =>
      rw [hcheck] at h
      dsimp only at h
      split_ifs at h with hempty hnone
      cases hlocate : system.locate path.absolute (withoutSlashes path.parts) with
      | error e => rw [hlocate] at h; cases h
      | ok found =>
          obtain ⟨place, entries, name⟩ := found
          rw [hlocate] at h
          dsimp only at h
          split_ifs at h with hdots
          rw [not_or] at hdots
          cases hentry : entry? entries name with
          | error e => rw [hentry] at h; cases h
          | ok node =>
              rw [hentry] at h
              rcases node with _ | node
              · cases h
                exact ⟨rfl, by simpa using hempty, place, entries, name, rfl, hdots.1, hdots.2,
                  hentry, rfl⟩
              · cases h

theorem kept_makeDirectory {path : Path} (h : system.makeDirectory path = .ok made) :
    Kept none system made := by
  obtain ⟨-, -, place, entries, name, hlocate, -, -, hentry, rfl⟩ := makeDirectory_eq_ok h
  obtain ⟨-, -, hnode⟩ := locate_eq_ok_iff.mp hlocate
  obtain ⟨-, hlookup⟩ := entry_eq_ok_iff.mp hentry
  have hnew : FileNode.Kept none (entries.lookup name) (.directory []) := by
    rw [hlookup]
    exact .new_directory
  refine ⟨rfl, FileNode.kept_set hnode hnew ?_⟩
  rw [hlookup, FileNode.entrySources_directory_nil]
  rfl

/-! ### Paths to directories -/

theorem walk_append_eq_ok_iff {absolute : Bool} {parts others place : List String} :
    system.walk absolute (parts ++ others) = .ok place ↔
      ∃ middle, system.walk absolute parts = .ok middle ∧
        others.foldlM system.step middle = .ok place := by
  rw [walk, List.foldlM_append, bind_eq_ok_iff]
  rfl

/-- Slashes behind a path to a directory lead nowhere else. -/
theorem foldlM_step_slashes {place : List String} {entries : List (String × FileNode)}
    (hnode : system.root.follow? place = some (.directory entries)) {slashes : List String}
    (h : ∀ part ∈ slashes, part = "") : slashes.foldlM system.step place = .ok place := by
  induction slashes with
  | nil => rfl
  | cons part slashes ih =>
      obtain ⟨rfl, hslashes⟩ := List.forall_mem_cons.mp h
      have hstep : system.step place "" = .ok place :=
        step_eq_ok_iff.mpr ⟨entries, hnode, .inl ⟨.inl rfl, rfl⟩⟩
      rw [List.foldlM_cons, hstep]
      exact ih hslashes

/-- A directory that was just made is a directory. -/
theorem isDirectory_of_makeDirectory {path : Path} (h : system.makeDirectory path = .ok made) :
    made.isDirectory path = true := by
  have hkept := kept_makeDirectory h
  obtain ⟨hcheck, hempty, place, entries, name, hlocate, hdot, hup, hentry, hmade⟩ :=
    makeDirectory_eq_ok h
  obtain ⟨hlast, hwalk, hnode⟩ := locate_eq_ok_iff.mp hlocate
  obtain ⟨slashes, hparts, hslashes, hname⟩ := exists_withoutSlashes path.parts
  have hnew : made.root.follow? (place ++ [name]) = some (.directory []) := by
    rw [hmade]
    exact FileNode.follow?_set hnode _
  -- The new directory is an entry of the directory in which it was made.
  obtain ⟨others, hothers, -⟩ := hkept.root.directories place entries hnode
  have hfound : others.lookup name = some (.directory []) := by
    rw [← FileNode.follow?_append_singleton hothers, hnew]
  have hstep : made.step place name = .ok (place ++ [name]) :=
    step_eq_ok_iff.mpr ⟨others, hothers, .inr (.inr ⟨by rintro rfl; exact hname hlast, hdot, hup,
      (entry_eq_ok_iff.mp hentry).1, Option.isSome_of_eq_some hfound, rfl⟩)⟩
  refine isDirectory_iff.mpr ⟨[], find_eq_ok_iff.mpr ⟨hcheck, hempty, place ++ [name], ?_, hnew⟩⟩
  rw [hparts, ← List.dropLast_append_getLast? name hlast, List.append_assoc,
    walk_append_eq_ok_iff]
  refine ⟨place, hkept.walk hwalk, ?_⟩
  rw [List.singleton_append, List.foldlM_cons, hstep]
  exact foldlM_step_slashes hnew hslashes

/-- What is a directory already is not made again. -/
theorem makeDirectory_of_isDirectory {path : Path} (h : system.isDirectory path = true) :
    system.makeDirectory path = .error .alreadyExists := by
  obtain ⟨inside, hfind⟩ := isDirectory_iff.mp h
  obtain ⟨hcheck, hempty, target, hwalk, -⟩ := find_eq_ok_iff.mp hfind
  obtain ⟨slashes, hparts, -, hname⟩ := exists_withoutSlashes path.parts
  rw [makeDirectory, hcheck]
  dsimp only
  rw [if_neg (by simp [hempty])]
  cases hlast : (withoutSlashes path.parts).getLast? with
  | none => exact if_pos (List.getLast?_eq_none_iff.mp hlast)
  | some name =>
      rw [if_neg (fun hnil => by rw [hnil] at hlast; cases hlast)]
      rw [hparts, ← List.dropLast_append_getLast? name hlast, List.append_assoc,
        walk_append_eq_ok_iff] at hwalk
      obtain ⟨place, hwalk, hsteps⟩ := hwalk
      rw [List.singleton_append, List.foldlM_cons, bind_eq_ok_iff] at hsteps
      obtain ⟨next, hstep, -⟩ := hsteps
      -- The last part of the path was stepped to, so there is an entry for it.
      obtain ⟨entries, hnode, htaken⟩ := step_eq_ok_iff.mp hstep
      rw [locate_eq_ok_iff.mpr ⟨hlast, hwalk, hnode⟩]
      dsimp only
      rcases htaken with ⟨rfl | rfl, -⟩ | ⟨rfl, -⟩ | ⟨-, hdot, hup, hlimit, hentry, -⟩
      · exact absurd hlast hname
      · rfl
      · rfl
      · obtain ⟨node, hlookup⟩ := Option.isSome_iff_exists.mp hentry
        rw [if_neg (by simp [hdot, hup]), entry_eq_ok_iff.mpr ⟨hlimit, hlookup⟩]

/-! ### Making directories -/

/-- Nothing is changed but directories that are made, also on failure. -/
theorem kept_makeDirectories (system : FileSystem) (path : Path) :
    Kept none system (system.makeDirectories path).1 := by
  fun_induction makeDirectories system path with
  | case1 path hempty => exact .refl none system
  | case2 path hempty made hmade => exact kept_makeDirectory hmade
  | case3 path hempty hmissing hparent => exact .refl none system
  | case4 path hempty hmissing parent hparent above e habove ih =>
      rw [habove] at ih
      exact ih
  | case5 path hempty hmissing parent hparent above habove made hmade ih =>
      rw [habove] at ih
      exact ih.trans (kept_makeDirectory hmade)
  | case6 path hempty hmissing parent hparent above habove e hfailed ih =>
      rw [habove] at ih
      exact ih
  | case7 path hempty e hother hfailed => exact .refl none system

/-- Once directories are made, there is a directory at their path. -/
theorem isDirectory_of_makeDirectories {path : Path}
    (h : (system.makeDirectories path).2 = .ok ()) :
    path.isEmpty = true ∨ (system.makeDirectories path).1.isDirectory path = true := by
  fun_induction makeDirectories system path with
  | case1 path hempty => exact .inl hempty
  | case2 path hempty made hmade => exact .inr (isDirectory_of_makeDirectory hmade)
  | case3 path hempty hmissing hparent => cases h
  | case4 path hempty hmissing parent hparent above e habove ih => cases h
  | case5 path hempty hmissing parent hparent above habove made hmade ih =>
      exact .inr (isDirectory_of_makeDirectory hmade)
  | case6 path hempty hmissing parent hparent above habove e hfailed ih =>
      dsimp only at h
      split_ifs at h with hdirectory
      exact .inr hdirectory
  | case7 path hempty e hother hfailed =>
      dsimp only at h
      split_ifs at h with hdirectory
      exact .inr hdirectory

/-- Where there is a directory, no directories are made. -/
theorem makeDirectories_eq_self {path : Path}
    (h : path.isEmpty = true ∨ system.isDirectory path = true) :
    system.makeDirectories path = (system, .ok ()) := by
  rw [makeDirectories]
  by_cases hempty : path.isEmpty = true
  · rw [if_pos hempty]
  · obtain hdirectory := h.resolve_left hempty
    rw [if_neg hempty, makeDirectory_of_isDirectory hdirectory]
    exact congrArg _ (if_pos hdirectory)

/-! ### Writing a file -/

/-- When a file is written, and what that does. -/
theorem write_eq_ok_iff {path : Path} {contents : ByteArray} :
    system.write path contents = .ok after ↔ checkPath path = .ok () ∧ ∃ place entries name,
      system.locate path.absolute path.parts = .ok (place, entries, name) ∧
      ¬(name = "" ∨ name = "." ∨ name = "..") ∧ name.utf8ByteSize ≤ nameLimit ∧
      (∀ inside, entries.lookup name ≠ some (.directory inside)) ∧
      after = { system with
        root := FileNode.set (place ++ [name]) (.file contents) system.root } := by
  rw [write]
  cases checkPath path with
  | error e => simp
  | ok u =>
      cases hlocate : system.locate path.absolute path.parts with
      | error e => simp
      | ok found =>
          obtain ⟨place, entries, name⟩ := found
          constructor
          · intro h
            dsimp only at h
            split_ifs at h with hdots
            cases hentry : entry? entries name with
            | error e => rw [hentry] at h; cases h
            | ok node =>
                obtain ⟨hsize, hlookup⟩ := entry_eq_ok_iff.mp hentry
                rw [hentry] at h
                refine ⟨rfl, place, entries, name, rfl, hdots, hsize, ?_, ?_⟩ <;>
                  rcases node with _ | (old | inside) <;> cases h <;> simp [hlookup]
          · rintro ⟨-, _, _, _, ⟨⟩, hdots, hsize, hlookup, rfl⟩
            dsimp only
            rw [if_neg hdots, entry_eq_ok_iff.mpr ⟨hsize, rfl⟩]
            rcases hnode : entries.lookup name with _ | (old | inside)
            · rfl
            · rfl
            · exact absurd hnode (hlookup inside)

section

variable {path : Path} {contents : ByteArray} {place : List String}
  {entries : List (String × FileNode)} {name : String}

/-- The bytes that were written are found. -/
theorem follow?_write
    (hlocate : system.locate path.absolute path.parts = .ok (place, entries, name))
    (h : system.write path contents = .ok after) :
    after.root.follow? (place ++ [name]) = some (.file contents) := by
  obtain ⟨-, _, _, _, hsame, -, -, -, rfl⟩ := write_eq_ok_iff.mp h
  cases hlocate.symm.trans hsame
  exact FileNode.follow?_set (locate_eq_ok_iff.mp hlocate).2.2 _

/-- Writing a file that is no source by its name changes that file only. -/
theorem kept_write (hlocate : system.locate path.absolute path.parts = .ok (place, entries, name))
    (hname : SourceFile.isSourceName name = false) (h : system.write path contents = .ok after) :
    Kept (some (place ++ [name])) system after := by
  obtain ⟨-, _, _, _, hsame, -, -, hlookup, rfl⟩ := write_eq_ok_iff.mp h
  cases hlocate.symm.trans hsame
  have hnew := FileNode.Kept.new_file hlookup contents
  refine ⟨rfl, FileNode.kept_set (locate_eq_ok_iff.mp hlocate).2.2 hnew ?_⟩
  rw [FileNode.entrySources_file hname]
  rcases hnode : entries.lookup name with _ | (old | inside)
  · rfl
  · exact (FileNode.entrySources_file hname old).symm
  · exact absurd hnode (hlookup inside)

/-- Writing the same bytes once more changes nothing. -/
theorem write_again (hlocate : system.locate path.absolute path.parts = .ok (place, entries, name))
    (hname : SourceFile.isSourceName name = false) (h : system.write path contents = .ok after) :
    after.write path contents = .ok after := by
  have hkept := kept_write hlocate hname h
  have hfound := follow?_write hlocate h
  obtain ⟨hcheck, _, _, _, hsame, hdots, hsize, -, -⟩ := write_eq_ok_iff.mp h
  cases hlocate.symm.trans hsame
  obtain ⟨others, hothers⟩ := hkept.locate hlocate
  have hnode := (locate_eq_ok_iff.mp hothers).2.2
  rw [FileNode.follow?_append_singleton hnode] at hfound
  refine write_eq_ok_iff.mpr ⟨hcheck, place, others, name, hothers, hdots, hsize, ?_, ?_⟩
  · simp [hfound]
  · rw [FileNode.set_eq_self hnode hfound]

end

end FileSystem

end SchemaLang
