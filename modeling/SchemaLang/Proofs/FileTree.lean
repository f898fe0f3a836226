import SchemaLang.Proofs.Shows
import SchemaLang.Sources

/-!
# What stays in a tree

A new directory or a file in its place changes one entry of one directory.  `FileNode.Kept` says
what all other places keep then: files their bytes, directories the sources below them.  It holds of
one change and of any number of changes, one after another.
-/

namespace SchemaLang

/-! ### Sorted lists without some of their elements -/

section

variable {α : Type} {le : α → α → Bool}

/-- In a sorted list nothing smaller comes later. -/
theorem le_of_mem_behind (htrans : ∀ a b c, le a b = true → le b c = true → le a c = true)
    (htotal : ∀ a b, (le a b || le b a) = true) {l before after : List α} {a : α}
    (h : l.mergeSort le = before ++ a :: after) : ∀ b ∈ after, le a b = true := by
  have hsorted := List.pairwise_mergeSort htrans htotal l
  rw [h, List.pairwise_append, List.pairwise_cons] at hsorted
  exact hsorted.2.1.1

/-- Elements may be left out before sorting or after it. -/
theorem filter_mergeSort (htrans : ∀ a b c, le a b = true → le b c = true → le a c = true)
    (htotal : ∀ a b, (le a b || le b a) = true) (p : α → Bool) (l : List α) :
    (l.mergeSort le).filter p = (l.filter p).mergeSort le := by
  induction l with
  | nil => simp
  | cons a l ih =>
      obtain ⟨before, after, hsorted, hrest, hbefore⟩ := List.mergeSort_cons htrans htotal a l
      rw [hrest, List.filter_append] at ih
      rw [hsorted, List.filter_append]
      by_cases ha : p a = true
      · obtain ⟨front, back, hkept, hothers, hfront⟩ :=
          List.mergeSort_cons htrans htotal a (l.filter p)
        have hafter := le_of_mem_behind htrans htotal hsorted
        have hback := le_of_mem_behind htrans htotal hkept
        -- Both lists are cut where the elements stop being smaller than the first one.
        obtain ⟨rfl, rfl⟩ : before.filter p = front ∧ after.filter p = back := by
          refine append_inj_of_class (p := fun b => !le a b) ?_ hfront ?_ ?_ (ih.trans hothers)
          · exact fun b hb => hbefore b (List.mem_of_mem_filter hb)
          · intro b hb
            simp [hafter b (List.mem_of_mem_filter (List.mem_of_mem_head? hb))]
          · intro b hb
            simp [hback b (List.mem_of_mem_head? hb)]
        rw [List.filter_cons_of_pos ha, List.filter_cons_of_pos ha, hkept]
      · rw [List.filter_cons_of_neg ha, List.filter_cons_of_neg ha, ih]

end

namespace FileNode

/-! ### Entries -/

theorem lookup_setEntry_self (name : String) (node : FileNode)
    (entries : List (String × FileNode)) :
    (setEntry name node entries).lookup name = some node := by
  induction entries with
  | nil => rw [setEntry, List.lookup_cons_self]
  | cons entry entries ih =>
      rw [setEntry]
      by_cases hname : entry.1 = name
      · rw [if_pos hname, List.lookup_cons_self]
      · rw [if_neg hname, List.lookup_cons, beq_false_of_ne (Ne.symm hname), ih]

theorem lookup_setEntry_of_ne {name other : String} (h : other ≠ name) (node : FileNode)
    (entries : List (String × FileNode)) :
    (setEntry name node entries).lookup other = entries.lookup other := by
  induction entries with
  | nil => rw [setEntry, List.lookup_cons, beq_false_of_ne h]
  | cons entry entries ih =>
      rw [setEntry]
      by_cases hname : entry.1 = name
      · rw [if_pos hname, List.lookup_cons, List.lookup_cons, hname, beq_false_of_ne h]
      · rw [if_neg hname, List.lookup_cons, List.lookup_cons, ih]

/-- Setting an entry to what it is leaves the directory. -/
theorem setEntry_eq_self {name : String} {node : FileNode} {entries : List (String × FileNode)}
    (h : entries.lookup name = some node) : setEntry name node entries = entries := by
  induction entries with
  | nil => cases h
  | cons entry entries ih =>
      rw [List.lookup_cons] at h
      rw [setEntry]
      by_cases hname : entry.1 = name
      · rw [hname, beq_self_eq_true] at h
        cases h
        rw [if_pos hname, ← hname]
      · rw [beq_false_of_ne (Ne.symm hname)] at h
        rw [if_neg hname, ih h]

/-! ### Sources below a directory -/

/-- The file holds a source, by the last of the names that lead to it. -/
def holdsSource (file : List String × ByteArray) : Bool :=
  (file.1.getLast?.map SourceFile.isSourceName).getD false

/-- The files of a tree that hold sources. -/
def sourceFiles (node : FileNode) : List (List String × ByteArray) :=
  node.files.filter holdsSource

theorem sources_eq (node : FileNode) (name : String) :
    node.sources name =
      node.sourceFiles.map fun file => ⟨file.1.foldl Path.joinText name, file.2⟩ := rfl

/-- The files that hold sources at or below an entry of a directory. -/
def entrySources (name : String) (node : FileNode) : List (List String × ByteArray) :=
  (node.files.map fun file => (name :: file.1, file.2)).filter holdsSource

theorem filesOf_eq_map (entries : List (String × FileNode)) :
    filesOf entries = entries.map fun entry => (entry.1, entry.2.files) := by
  induction entries with
  | nil => rfl
  | cons entry entries ih => rw [filesOf, ih, List.map_cons]

/-- The order of entries by their names. -/
def nameLe {β : Type} (a b : String × β) : Bool :=
  a.1 ≤ b.1

theorem nameLe_trans {β : Type} (a b c : String × β) :
    nameLe a b = true → nameLe b c = true → nameLe a c = true := by
  simp only [nameLe, decide_eq_true_eq]
  exact String.le_trans

theorem nameLe_total {β : Type} (a b : String × β) : (nameLe a b || nameLe b a) = true := by
  simp only [nameLe, Bool.or_eq_true, decide_eq_true_eq]
  exact String.le_total a.1 b.1

theorem flatMap_snd_filter {β : Type} (l : List (String × List β)) :
    (l.filter fun entry => !entry.2.isEmpty).flatMap Prod.snd = l.flatMap Prod.snd := by
  induction l with
  | nil => rfl
  | cons entry l ih =>
      rcases entry with ⟨name, _ | ⟨b, rest⟩⟩
      · exact ih
      · exact congrArg ((b :: rest) ++ ·) ih

/-- The entries of a directory that lead to sources, with these. -/
def sourceEntries (entries : List (String × FileNode)) :
    List (String × List (List String × ByteArray)) :=
  (entries.map fun entry => (entry.1, entrySources entry.1 entry.2)).filter
    fun entry => !entry.2.isEmpty

/-- Only entries that lead to sources matter to the sources of a directory. -/
theorem sourceFiles_directory (entries : List (String × FileNode)) :
    (directory entries).sourceFiles =
      ((sourceEntries entries).mergeSort nameLe).flatMap Prod.snd := by
  have hmap : ((filesOf entries).mergeSort nameLe).map (fun entry => (entry.1,
        (entry.2.map fun file => (entry.1 :: file.1, file.2)).filter holdsSource)) =
      (entries.map fun entry => (entry.1, entrySources entry.1 entry.2)).mergeSort nameLe := by
    refine (List.map_mergeSort (s := nameLe) fun a _ b _ => rfl).trans ?_
    rw [filesOf_eq_map, List.map_map]
    rfl
  rw [sourceEntries, ← filter_mergeSort nameLe_trans nameLe_total, flatMap_snd_filter, ← hmap,
    List.flatMap_map, sourceFiles, files, List.filter_flatMap]
  rfl

/-- An entry may be set to a node with the same sources, and a new one to a node without any. -/
theorem sourceFiles_setEntry {name : String} {new : FileNode} {entries : List (String × FileNode)}
    (h : entrySources name new = ((entries.lookup name).map (entrySources name)).getD []) :
    (directory (setEntry name new entries)).sourceFiles = (directory entries).sourceFiles := by
  have hentries : sourceEntries (setEntry name new entries) = sourceEntries entries := by
    induction entries with
    | nil => simpa [sourceEntries, setEntry] using h
    | cons entry entries ih =>
        rw [List.lookup_cons] at h
        rw [setEntry]
        by_cases hname : entry.1 = name
        · rw [hname, beq_self_eq_true] at h
          have hsame : entrySources name new = entrySources name entry.2 := h
          rw [if_pos hname, sourceEntries, sourceEntries, List.map_cons, List.map_cons, hname,
            hsame]
        · rw [beq_false_of_ne (Ne.symm hname)] at h
          have hrest := ih h
          rw [sourceEntries, sourceEntries] at hrest
          rw [if_neg hname, sourceEntries, sourceEntries, List.map_cons, List.map_cons,
            List.filter_cons, List.filter_cons, hrest]
  rw [sourceFiles_directory, sourceFiles_directory, hentries]

/-- Names lead to the files below a directory. -/
theorem ne_nil_of_mem_files {entries : List (String × FileNode)}
    {file : List String × ByteArray} (h : file ∈ (directory entries).files) : file.1 ≠ [] := by
  rw [files, List.mem_flatMap] at h
  obtain ⟨entry, -, hfile⟩ := h
  obtain ⟨below, -, rfl⟩ := List.mem_map.mp hfile
  exact List.cons_ne_nil _ _

/-- The sources at an entry that is a directory are those of the directory. -/
theorem entrySources_directory (name : String) (entries : List (String × FileNode)) :
    entrySources name (directory entries) =
      (directory entries).sourceFiles.map fun file => (name :: file.1, file.2) := by
  rw [entrySources, List.filter_map, sourceFiles]
  refine congrArg (List.map _) (List.filter_congr fun file hfile => ?_)
  rw [Function.comp_apply, holdsSource, holdsSource,
    List.getLast?_cons_of_ne_nil (ne_nil_of_mem_files hfile)]

/-- A file is no source by another name. -/
theorem entrySources_file {name : String} (h : SourceFile.isSourceName name = false)
    (contents : ByteArray) : entrySources name (file contents) = [] := by
  simp [entrySources, files, holdsSource, h]

theorem entrySources_directory_nil (name : String) : entrySources name (directory []) = [] := by
  simp [entrySources, files, filesOf]

/-! ### Changes in one place -/

/-- The bytes of a node that is a file. -/
def contents? : FileNode → Option ByteArray
  | .file contents => some contents
  | .directory _ => none

/-- The bytes of the file at a place. -/
def fileAt? (place : List String) (node : FileNode) : Option ByteArray :=
  (node.follow? place).bind contents?

theorem fileAt?_eq_some_iff {place : List String} {node : FileNode} {contents : ByteArray} :
    node.fileAt? place = some contents ↔ node.follow? place = some (file contents) := by
  rw [fileAt?]
  rcases node.follow? place with _ | (bytes | entries) <;> simp [contents?]

theorem follow?_cons (name : String) (names : List String) (entries : List (String × FileNode)) :
    (directory entries).follow? (name :: names) = (entries.lookup name).bind (follow? names) :=
  rfl

theorem fileAt?_cons (name : String) (names : List String) (entries : List (String × FileNode)) :
    (directory entries).fileAt? (name :: names) = (entries.lookup name).bind (fileAt? names) :=
  Option.bind_assoc ..

/-- How what is at a place, if anything, is related to what is there later: below it files keep
their bytes, except at one place that was written to, and none is new; directories keep the sources
below them; and nothing is gone. -/
structure Kept (written : Option (List String)) (before : Option FileNode) (after : FileNode) :
    Prop where
  files : ∀ place, some place ≠ written → after.fileAt? place = before.bind (fileAt? place)
  directories : ∀ place entries, before.bind (follow? place) = some (.directory entries) →
    ∃ others, after.follow? place = some (.directory others) ∧
      (directory others).sourceFiles = (directory entries).sourceFiles
  present : ∀ place, (before.bind (follow? place)).isSome = true →
    (after.follow? place).isSome = true

namespace Kept

variable {written : Option (List String)} {a b c : FileNode}

theorem refl (written : Option (List String)) (node : FileNode) : Kept written (some node) node :=
  ⟨fun _ _ => rfl, fun _ entries h => ⟨entries, h, rfl⟩, fun _ h => h⟩

theorem trans (hab : Kept written (some a) b) (hbc : Kept written (some b) c) :
    Kept written (some a) c := by
  refine ⟨fun place hplace => ?_, fun place entries hentries => ?_, fun place hplace => ?_⟩
  · rw [hbc.files place hplace]
    exact hab.files place hplace
  · obtain ⟨middle, hmiddle, hsources⟩ := hab.directories place entries hentries
    obtain ⟨others, hothers, hsame⟩ := hbc.directories place middle hmiddle
    exact ⟨others, hothers, hsame.trans hsources⟩
  · exact hbc.present place (hab.present place hplace)

/-- What changed nowhere else changed nowhere but at a place. -/
theorem of_none (h : Kept none (some a) b) (written : Option (List String)) :
    Kept written (some a) b :=
  ⟨fun place _ => h.files place (Option.some_ne_none place), h.directories, h.present⟩

theorem new_directory : Kept none none (directory []) := by
  refine ⟨fun place _ => ?_, fun place entries hentries => ?_, fun place hplace => ?_⟩
  · cases place <;> rfl
  · cases hentries
  · cases hplace

/-- A file that is new or takes the place of another one. -/
theorem new_file {before : Option FileNode} (h : ∀ entries, before ≠ some (directory entries))
    (contents : ByteArray) : Kept (some []) before (file contents) := by
  -- There is nothing below a file, and nothing below what was there before.
  have hbelow (name : String) (names : List String) :
      before.bind (follow? (name :: names)) = none := by
    rcases before with _ | _ | entries
    · rfl
    · rfl
    · exact absurd rfl (h entries)
  refine ⟨fun place hplace => ?_, fun place entries hentries => ?_, fun place hplace => ?_⟩
  · rcases place with _ | ⟨name, names⟩
    · exact absurd rfl hplace
    · have hnone := congrArg (Option.bind · contents?) (hbelow name names)
      rw [Option.bind_assoc] at hnone
      exact hnone.symm
  · rcases place with _ | ⟨name, names⟩
    · rw [show before.bind (follow? []) = before by cases before <;> rfl] at hentries
      exact absurd hentries (h entries)
    · rw [hbelow] at hentries
      cases hentries
  · rcases place with _ | ⟨name, names⟩
    · rfl
    · rw [hbelow] at hplace
      cases hplace

end Kept

/-- A change at an entry is a change of its directory, if it adds and takes away no source. -/
theorem Kept.setEntry {written : Option (List String)} {name : String} {new : FileNode}
    {entries : List (String × FileNode)} (h : Kept written (entries.lookup name) new)
    (hsources : entrySources name new =
      ((entries.lookup name).map (entrySources name)).getD []) :
    Kept (written.map (name :: ·)) (some (directory entries))
      (directory (setEntry name new entries)) := by
  refine ⟨fun place hplace => ?_, fun place below hbelow => ?_, fun place hplace => ?_⟩
  · rcases place with _ | ⟨other, rest⟩
    · rfl
    rw [Option.bind_some, fileAt?_cons, fileAt?_cons]
    by_cases hname : other = name
    · subst hname
      rw [lookup_setEntry_self]
      refine h.files rest fun hrest => hplace ?_
      rw [← hrest]
      rfl
    · rw [lookup_setEntry_of_ne hname]
  · rcases place with _ | ⟨other, rest⟩
    · cases hbelow
      exact ⟨_, rfl, sourceFiles_setEntry hsources⟩
    rw [Option.bind_some, follow?_cons] at hbelow
    rw [follow?_cons]
    by_cases hname : other = name
    · subst hname
      rw [lookup_setEntry_self]
      exact h.directories rest below hbelow
    · rw [lookup_setEntry_of_ne hname]
      exact ⟨below, hbelow, rfl⟩
  · rcases place with _ | ⟨other, rest⟩
    · rfl
    rw [Option.bind_some, follow?_cons] at hplace
    rw [follow?_cons]
    by_cases hname : other = name
    · subst hname
      rw [lookup_setEntry_self]
      exact h.present rest hplace
    · rw [lookup_setEntry_of_ne hname]
      exact hplace

/-! ### Changes deep in a tree -/

theorem set_cons {names : List String} (h : names ≠ []) (name : String) (new : FileNode)
    {entries : List (String × FileNode)} {node : FileNode}
    (hnode : entries.lookup name = some node) :
    set (name :: names) new (directory entries) =
      directory (setEntry name (set names new node) entries) := by
  rcases names with _ | ⟨next, names⟩
  · exact absurd rfl h
  · rw [set, hnode]
    exact fun h => absurd h (List.cons_ne_nil _ _)

/-- What lies on the way to a directory is a directory. -/
theorem exists_of_follow?_eq_directory {names : List String} {node : FileNode}
    {entries : List (String × FileNode)} (h : node.follow? names = some (directory entries)) :
    ∃ around, node = directory around := by
  rcases node with contents | around
  · cases names <;> cases h
  · exact ⟨around, rfl⟩

/-- Where a list of names leads to a directory, setting an entry of that directory changes the tree
as it changes the entry. -/
theorem kept_set {written : Option (List String)} {names : List String} {name : String}
    {entries : List (String × FileNode)} {tree new : FileNode}
    (hparent : tree.follow? names = some (directory entries))
    (hnew : Kept written (entries.lookup name) new)
    (hsources : entrySources name new =
      ((entries.lookup name).map (entrySources name)).getD []) :
    Kept (written.map fun below => names ++ name :: below) (some tree)
      (set (names ++ [name]) new tree) := by
  induction names generalizing tree with
  | nil =>
      cases hparent
      exact hnew.setEntry hsources
  | cons next names ih =>
      rcases tree with contents | around
      · cases hparent
      rw [follow?_cons] at hparent
      obtain ⟨node, hnode, hbelow⟩ := Option.bind_eq_some_iff.mp hparent
      have hkept := ih hbelow
      -- The entry on the way is a directory before and after, with the same sources below it.
      obtain ⟨inside, rfl⟩ := exists_of_follow?_eq_directory hbelow
      obtain ⟨others, hothers, hsame⟩ := hkept.directories [] inside rfl
      have hset : set (names ++ [name]) new (directory inside) = directory others :=
        Option.some.inj hothers
      rw [List.cons_append, set_cons (by simp) next new hnode]
      have hentry := Kept.setEntry (hnode ▸ hkept) (by
        rw [hset, hnode, Option.map_some, Option.getD_some, entrySources_directory, hsame,
          entrySources_directory])
      rw [Option.map_map] at hentry
      exact hentry

theorem follow?_append (names others : List String) (node : FileNode) :
    node.follow? (names ++ others) = (node.follow? names).bind (follow? others) := by
  induction names generalizing node with
  | nil => rfl
  | cons name names ih =>
      rcases node with contents | entries
      · rfl
      rw [List.cons_append, follow?_cons, follow?_cons, Option.bind_assoc]
      exact congrArg _ (funext fun node => ih node)

/-- One more name leads to an entry of the directory that the others lead to. -/
theorem follow?_append_singleton {names : List String} {node : FileNode}
    {entries : List (String × FileNode)} (h : node.follow? names = some (directory entries))
    (name : String) : node.follow? (names ++ [name]) = entries.lookup name := by
  rw [follow?_append, h, Option.bind_some, follow?_cons]
  cases entries.lookup name <;> rfl

/-- What was set at a place is found there. -/
theorem follow?_set {names : List String} {name : String} {entries : List (String × FileNode)}
    {tree : FileNode} (hparent : tree.follow? names = some (directory entries)) (new : FileNode) :
    (set (names ++ [name]) new tree).follow? (names ++ [name]) = some new := by
  induction names generalizing tree with
  | nil =>
      cases hparent
      show ((setEntry name new entries).lookup name).bind (follow? []) = some new
      rw [lookup_setEntry_self]
      rfl
  | cons next names ih =>
      rcases tree with contents | around
      · cases hparent
      rw [follow?_cons] at hparent
      obtain ⟨node, hnode, hbelow⟩ := Option.bind_eq_some_iff.mp hparent
      rw [List.cons_append, set_cons (by simp) next new hnode, follow?_cons,
        lookup_setEntry_self, Option.bind_some, ih hbelow]

/-- Setting what is there already leaves the tree. -/
theorem set_eq_self {names : List String} {name : String} {entries : List (String × FileNode)}
    {tree node : FileNode} (hparent : tree.follow? names = some (directory entries))
    (hnode : entries.lookup name = some node) : set (names ++ [name]) node tree = tree := by
  induction names generalizing tree with
  | nil =>
      cases hparent
      exact congrArg directory (setEntry_eq_self hnode)
  | cons next names ih =>
      rcases tree with contents | around
      · cases hparent
      rw [follow?_cons] at hparent
      obtain ⟨inside, hinside, hbelow⟩ := Option.bind_eq_some_iff.mp hparent
      rw [List.cons_append, set_cons (by simp) next node hinside, ih hbelow,
        setEntry_eq_self hinside]

end FileNode

end SchemaLang
