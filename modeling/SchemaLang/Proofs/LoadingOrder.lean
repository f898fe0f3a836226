import SchemaLang.Proofs.ByteOrder
import SchemaLang.Proofs.FileTree
import SchemaLang.Proofs.NameTable

/-!
# The order in which sources are loaded

The files below a directory come entry by entry, each with all that is below it.  Read as lists of
names, the places of the files are then in order: the first name in which two places differ decides,
by its bytes.  This is not the order of the paths, in which a slash counts like any other character.
The packages of the files are loaded in this order up to the first file that holds none.
-/

namespace SchemaLang

/-- A list of names comes before another one: by the first name in which they differ, and the names
by their bytes. -/
def PathLt : List String → List String → Prop :=
  List.Lex fun s t => textBytes s < textBytes t

/-- What stands behind the last dot of a name, with something in front of that dot. -/
def HasExtension (name extension : String) : Prop :=
  ∃ stem, stem ≠ "" ∧ '.' ∉ extension.toList ∧ name = stem ++ "." ++ extension

/-- The last of the names is the name of a source. -/
def LeadsToSource (names : List String) : Prop :=
  ∃ name, names.getLast? = some name ∧ HasExtension name "sdl"

/-- A part is put behind the same text whatever it is. -/
theorem Path.exists_joinText (text : String) :
    ∃ front, ∀ part, joinText text part = front ++ part := by
  by_cases h : (text.isEmpty || text.toList.getLast? = some '/') = true
  · exact ⟨text, fun part => if_pos h⟩
  · exact ⟨text ++ "/", fun part => if_neg h⟩

/-- The order of places is not that of the texts of their paths. -/
theorem exists_pathLt_text_gt (path : String) : ∃ a b, PathLt a b ∧
    textBytes (b.foldl Path.joinText path) < textBytes (a.foldl Path.joinText path) := by
  refine ⟨["a", "x.sdl"], ["a.sdl"], .rel (textBytes_lt (by decide)), textBytes_lt ?_⟩
  obtain ⟨front, hfront⟩ := Path.exists_joinText path
  have hinside : Path.joinText (front ++ "a") "x.sdl" = front ++ "a" ++ "/" ++ "x.sdl" :=
    if_neg (by simp)
  show Path.joinText path "a.sdl" < Path.joinText (Path.joinText path "a") "x.sdl"
  rw [hfront, hfront, hinside, String.lt_iff]
  simp only [String.toList_append, List.append_assoc]
  -- A dot is smaller than a slash.
  exact List.append_left_lt (by decide)

theorem SourceFile.isSourceName_iff (name : String) :
    isSourceName name = true ↔ HasExtension name "sdl" := by
  unfold isSourceName
  constructor
  · intro h
    split at h
    case h_1 c cs hname =>
      refine ⟨String.ofList (c :: cs).reverse, by simp, by decide, ?_⟩
      rw [← String.toList_inj, ← List.reverse_inj, hname]
      simp
    case h_2 => cases h
  · rintro ⟨stem, hstem, -, rfl⟩
    have hne : stem.toList.reverse ≠ [] := by simpa using hstem
    obtain ⟨c, cs, hcs⟩ := List.exists_cons_of_ne_nil hne
    simp [hcs]

namespace FileNode

/-- No directory of the tree has two entries of one name. -/
inductive WellNamed : FileNode → Prop
  | file (contents : ByteArray) : WellNamed (.file contents)
  | directory {entries : List (String × FileNode)} (hnames : (entries.map Prod.fst).Nodup)
      (hbelow : ∀ entry ∈ entries, WellNamed entry.2) : WellNamed (.directory entries)

/-! ### Files in the order of their places -/

/-- Entries whose names are distinct are in strict order once they are sorted. -/
theorem pairwise_lt_mergeSort {entries : List (String × FileNode)}
    (hnames : (entries.map Prod.fst).Nodup) :
    ((filesOf entries).mergeSort nameLe).Pairwise fun a b => a.1 < b.1 := by
  have hsorted : ((filesOf entries).mergeSort nameLe).Pairwise fun a b => nameLe a b = true :=
    List.pairwise_mergeSort nameLe_trans nameLe_total _
  have hdistinct : ((filesOf entries).mergeSort nameLe).Pairwise fun a b => a.1 ≠ b.1 := by
    have hmap : (filesOf entries).map Prod.fst = entries.map Prod.fst := by
      rw [filesOf_eq_map, List.map_map]
      rfl
    rw [← hmap, ← ((List.mergeSort_perm (filesOf entries) nameLe).map Prod.fst).nodup_iff] at hnames
    exact List.pairwise_map.mp hnames
  refine (hsorted.and hdistinct).imp fun {a b} h => ?_
  have hle : a.1 ≤ b.1 := of_decide_eq_true h.1
  exact String.not_le.mp fun hge => h.2 (String.le_antisymm hle hge)

namespace WellNamed

/-- The files of a tree are in the order of their places. -/
theorem pairwise_files {node : FileNode} (h : WellNamed node) :
    node.files.Pairwise fun a b => PathLt a.1 b.1 := by
  induction h with
  | file contents => exact List.pairwise_singleton _ _
  | @directory entries hnames _ ih =>
      rw [files, List.pairwise_flatMap]
      constructor
      -- Below one entry all places begin with its name.
      · intro entry hentry
        rw [List.mem_mergeSort, filesOf_eq_map] at hentry
        obtain ⟨named, hnamed, rfl⟩ := List.mem_map.mp hentry
        exact List.pairwise_map.mpr ((ih named hnamed).imp .cons)
      -- Below two entries they begin with two names.
      · refine (pairwise_lt_mergeSort hnames).imp fun hlt file hfile other hother => ?_
        obtain ⟨below, -, rfl⟩ := List.mem_map.mp hfile
        obtain ⟨below', -, rfl⟩ := List.mem_map.mp hother
        exact .rel (textBytes_lt hlt)

theorem mem_files_iff {node : FileNode} (h : WellNamed node) {names : List String}
    {contents : ByteArray} :
    (names, contents) ∈ node.files ↔ node.fileAt? names = some contents := by
  induction h generalizing names with
  | file bytes =>
      rcases names with _ | ⟨name, names⟩
      · simp [files, fileAt?, follow?, contents?, eq_comm]
      · simp [files, fileAt?, follow?]
  | @directory entries hnames _ ih =>
      have hfiles : (names, contents) ∈ (FileNode.directory entries).files ↔
          ∃ entry ∈ entries, ∃ below, (below, contents) ∈ entry.2.files ∧
            entry.1 :: below = names := by
        simp [files, filesOf_eq_map]
      rw [hfiles]
      rcases names with _ | ⟨name, names⟩
      · simp [fileAt?, follow?, contents?]
      rw [fileAt?_cons, Option.bind_eq_some_iff]
      constructor
      · rintro ⟨⟨_, node⟩, hentry, _, hfile, hplace⟩
        cases hplace
        exact ⟨node, (NameTable.lookup_eq_some_iff_mem hnames).mpr hentry, (ih _ hentry).mp hfile⟩
      · rintro ⟨node, hlookup, hfile⟩
        have hentry := (NameTable.lookup_eq_some_iff_mem hnames).mp hlookup
        exact ⟨(name, node), hentry, names, (ih _ hentry).mpr hfile, rfl⟩

end WellNamed

theorem holdsSource_iff (file : List String × ByteArray) :
    holdsSource file = true ↔ LeadsToSource file.1 := by
  unfold holdsSource LeadsToSource
  cases file.1.getLast? with
  | none => simp
  | some name => simp [SourceFile.isSourceName_iff]

/-- The list has the sources of a tree, each once and in the order of their places. -/
structure Lists (node : FileNode) (listing : List (List String × ByteArray)) : Prop where
  ordered : listing.Pairwise fun a b => PathLt a.1 b.1
  mem_iff : ∀ names contents, (names, contents) ∈ listing ↔
    node.fileAt? names = some contents ∧ LeadsToSource names

theorem WellNamed.lists_sourceFiles {node : FileNode} (h : WellNamed node) :
    node.Lists node.sourceFiles := by
  refine ⟨h.pairwise_files.filter _, fun names contents => ?_⟩
  rw [sourceFiles, List.mem_filter, h.mem_files_iff, holdsSource_iff]

theorem Lists.eq_nil_iff {node : FileNode} {listing : List (List String × ByteArray)}
    (h : node.Lists listing) : listing = [] ↔
      ¬ ∃ names contents, node.fileAt? names = some contents ∧ LeadsToSource names := by
  rw [List.eq_nil_iff_forall_not_mem]
  constructor
  · rintro hnone ⟨names, contents, hsource⟩
    exact hnone _ ((h.mem_iff names contents).mpr hsource)
  · rintro hnone ⟨names, contents⟩ hmem
    exact hnone ⟨names, contents, (h.mem_iff names contents).mp hmem⟩

end FileNode

/-! ### Loading one file after another -/

section

variable {ε α β : Type} {f : α → Except ε β}

/-- The results of a loop stand in the order of what it went through. -/
theorem mapM_eq_ok_iff_forall₂ {l : List α} {bs : List β} :
    l.mapM f = .ok bs ↔ List.Forall₂ (fun a b => f a = .ok b) l bs := by
  induction l generalizing bs with
  | nil =>
      rw [List.mapM_nil, List.forall₂_nil_left_iff]
      exact ⟨fun h => (Except.ok.inj h).symm, fun h => congrArg _ h.symm⟩
  | cons a l ih =>
      rw [List.mapM_cons, bind_eq_ok_iff, List.forall₂_cons_left_iff]
      simp only [bind_eq_ok_iff, ih]
      constructor
      · rintro ⟨b, hb, rest, hrest, hbs⟩
        exact ⟨b, rest, hb, hrest, (Except.ok.inj hbs).symm⟩
      · rintro ⟨b, rest, hb, hrest, rfl⟩
        exact ⟨b, hb, rest, hrest, rfl⟩

/-- A loop fails at the first element that has no result. -/
theorem mapM_eq_error_iff {l : List α} {e : ε} :
    l.mapM f = .error e ↔ ∃ before a after bs, l = before ++ a :: after ∧
      List.Forall₂ (fun a b => f a = .ok b) before bs ∧ f a = .error e := by
  constructor
  · intro h
    induction l with
    | nil => cases h
    | cons a l ih =>
        rw [List.mapM_cons, bind_eq_error_iff] at h
        rcases h with ha | ⟨b, hb, hrest⟩
        · exact ⟨[], a, l, [], rfl, .nil, ha⟩
        · rcases bind_eq_error_iff.mp hrest with hfail | ⟨bs, -, hpure⟩
          · obtain ⟨before, x, after, bs, rfl, hbefore, hx⟩ := ih hfail
            exact ⟨a :: before, x, after, b :: bs, rfl, .cons hb hbefore, hx⟩
          · cases hpure
  · rintro ⟨before, a, after, bs, rfl, hbefore, ha⟩
    rw [List.mapM_append, mapM_eq_ok_iff_forall₂.mpr hbefore]
    show ((a :: after).mapM f >>= fun more => pure (bs ++ more)) = .error e
    rw [List.mapM_cons, ha]
    rfl

end

/-- The file at a place below the directory at a path. -/
def SourceFile.below (path : String) (file : List String × ByteArray) : SourceFile :=
  ⟨file.1.foldl Path.joinText path, file.2⟩

/-- That a directory holds no source is no error of a file. -/
theorem SourceFile.load_ne_noSources (file : SourceFile) (path : String) :
    file.load ≠ .error (.noSources path) := by
  unfold load
  split
  · simp
  · split <;> simp

namespace FileSystem

variable {system : FileSystem} {path : String} {entries : List (String × FileNode)}

/-- Loading a directory is loading the files of its listing. -/
theorem loadPackages_eq (hfind : system.find (.ofText path) = .ok (.directory entries)) :
    system.loadPackages path =
      if (FileNode.directory entries).sourceFiles = [] then .error (.noSources path)
      else (FileNode.directory entries).sourceFiles.mapM fun file =>
        (SourceFile.below path file).load := by
  rw [loadPackages, sources, hfind]
  dsimp only
  rw [FileNode.sources_eq]
  cases hfiles : (FileNode.directory entries).sourceFiles with
  | nil => rfl
  | cons file files =>
      rw [if_neg (List.cons_ne_nil _ _)]
      exact List.mapM_map

/-- Loading a path is loading the files of a listing, each in its turn: there must be one, all of
them must hold packages, and an error is that of the first file that does not. -/
structure LoadsInTurn (system : FileSystem) (path : String)
    (listing : List (List String × ByteArray)) : Prop where
  ok_iff : ∀ packages, system.loadPackages path = .ok packages ↔ listing ≠ [] ∧
    List.Forall₂ (fun file package => (SourceFile.below path file).load = .ok package)
      listing packages
  error_iff : ∀ e, system.loadPackages path = .error e ↔ listing = [] ∧ e = .noSources path ∨
    ∃ before file after packages, listing = before ++ file :: after ∧
      List.Forall₂ (fun file package => (SourceFile.below path file).load = .ok package)
        before packages ∧
      (SourceFile.below path file).load = .error e

/-- The sources of a directory are loaded in the order of their places, which is not that of their
paths, and there are none exactly if loading says so. -/
theorem loadPackages_directory (hfind : system.find (.ofText path) = .ok (.directory entries))
    (hnamed : FileNode.WellNamed (.directory entries)) :
    (∃ listing, (FileNode.directory entries).Lists listing ∧ system.LoadsInTurn path listing) ∧
      (system.loadPackages path = .error (.noSources path) ↔
        ¬ ∃ names contents, (FileNode.directory entries).fileAt? names = some contents ∧
          LeadsToSource names) ∧
      ∃ a b, PathLt a b ∧
        textBytes (b.foldl Path.joinText path) < textBytes (a.foldl Path.joinText path) := by
  have hlists := hnamed.lists_sourceFiles
  have hload := loadPackages_eq hfind
  refine ⟨⟨_, hlists, ⟨fun packages => ?_, fun e => ?_⟩⟩, ?_, exists_pathLt_text_gt path⟩
  · rw [hload]
    split
    case isTrue hnone => simp [hnone]
    case isFalse hsome => rw [mapM_eq_ok_iff_forall₂, and_iff_right hsome]
  · rw [hload]
    split
    case isTrue hnone => simp [hnone, eq_comm]
    case isFalse hsome => simp [hsome, mapM_eq_error_iff]
  · rw [← hlists.eq_nil_iff, hload]
    split
    case isTrue hnone => simp [hnone]
    case isFalse hsome =>
      simp only [hsome, iff_false]
      intro hmapM
      obtain ⟨_, file, _, _, _, _, hfile⟩ := mapM_eq_error_iff.mp hmapM
      exact SourceFile.load_ne_noSources _ path hfile

/-- A directory next to a file whose name goes on with a dot. -/
def interleaved : FileNode :=
  .directory [("a.sdl", .file "package \"p\"".toUTF8),
    ("a", .directory [("x.sdl", .file "package \"q\"".toUTF8), ("notes", .file .empty)])]

theorem loadPackages_interleaved :
    (∃ listing, interleaved.Lists listing ∧ LoadsInTurn ⟨interleaved, []⟩ "." listing) ∧
      (loadPackages ⟨interleaved, []⟩ "." = .error (.noSources ".") ↔
        ¬ ∃ names contents, interleaved.fileAt? names = some contents ∧ LeadsToSource names) ∧
      ∃ a b, PathLt a b ∧
        textBytes (b.foldl Path.joinText ".") < textBytes (a.foldl Path.joinText ".") := by
  refine loadPackages_directory rfl (.directory (by decide) fun entry hentry => ?_)
  rcases List.mem_pair.mp hentry with rfl | rfl
  · exact .file _
  · refine .directory (by decide) fun entry hentry => ?_
    rcases List.mem_pair.mp hentry with rfl | rfl
    · exact .file _
    · exact .file _

end FileSystem

end SchemaLang
