import TypeNotes.Proofs.Files.Collect

/-!
# What directories contribute

**Walking.** A directory stands for the Ruby files in it and below it that are reached without going
through a hidden directory (`FileSystem.HasRubyFile`), all of them, each once, and in this order:
the files of a directory by their names, and then those of its subdirectories, by the names of these
(`Precedes`). This is shown for a tree first, by induction on it (`exists_walk`), with the files told
by the names on the way to them.

**Collecting.** Patterns in a row contribute one after the other what was not contributed before
(`collectFiles_union`).
-/

namespace TypeNotes

open TypeNotes.Path

/-! ### Names on the way to a file -/

/-- The path that leads on from a path by names. -/
def Path.below (path : List Char) (names : List (List Char)) : List Char := names.foldl join path

/-- The names on the way from a directory to a Ruby file in it, or below it without going through a
hidden directory. -/
inductive FileTree.Reaches : FileTree → List (List Char) → Prop
  | file {entries : List (List Char × FileTree)} {name : List Char} {bytes : List UInt8} :
      (name, .file bytes) ∈ entries → isRubyName name = true → Reaches (.directory entries) [name]
  | directory {entries : List (List Char × FileTree)} {name : List Char} {t : FileTree}
      {names : List (List Char)} : (name, t) ∈ entries → Glob.isHidden name = false →
      Reaches t names → Reaches (.directory entries) (name :: names)

/-- There is a Ruby file where these names lead to from a path, and none of the directories on the
way is hidden. -/
structure FileSystem.HasRubyFile (fs : FileSystem) (path : List Char) (names : List (List Char)) :
    Prop where
  isName : ∀ name ∈ names, IsName name
  visible : ∀ name ∈ names.dropLast, Glob.isHidden name = false
  isRubyName : ∃ name ∈ names.getLast?, isRubyName name = true
  isFile : ∃ bytes, fs.find (below path names) = .ok (.file bytes)

theorem FileTree.Reaches.ne_nil {t : FileTree} {names : List (List Char)} (h : t.Reaches names) :
    names ≠ [] := by
  cases h with
  | file => exact List.cons_ne_nil _ _
  | directory => exact List.cons_ne_nil _ _

namespace FileSystem

variable {fs : FileSystem}

/-- Names lead on only from what is there. -/
theorem exists_of_find_below {path : List Char} {names : List (List Char)} {t : FileTree}
    (hne : path ≠ []) (hnames : ∀ name ∈ names, IsName name)
    (h : fs.find (below path names) = .ok t) : ∃ base, fs.find path = .ok base := by
  induction names generalizing path with
  | nil => exact ⟨t, h⟩
  | cons name names ih =>
    obtain ⟨hname, hnames⟩ := List.forall_mem_cons.1 hnames
    obtain ⟨base, hbase⟩ := ih (join_ne_nil hname.isAbsolute hne) hnames h
    rw [find_join_eq hne hname] at hbase
    cases hfind : fs.find path with
    | error fault => rw [hfind] at hbase; cases hbase
    | ok base => exact ⟨base, rfl⟩

/-- A name leads from a path to an entry of a directory, if anywhere. -/
theorem exists_entry_of_find_join {path name : List Char} {t t' : FileTree}
    (hpath : fs.find path = .ok t) (hname : IsName name) (h : fs.find (join path name) = .ok t') :
    ∃ entries, t = .directory entries ∧ (name, t') ∈ entries := by
  rw [find_join_eq (ne_nil_of_find hpath) hname, hpath] at h
  cases t with
  | file => cases h
  | directory entries =>
    change (entries.lookup name).elim _ _ = _ at h
    cases hlookup : entries.lookup name with
    | none => rw [hlookup] at h; cases h
    | some child =>
      rw [hlookup] at h
      obtain rfl : child = t' := Except.ok.inj h
      obtain ⟨before, after, rfl, -⟩ := List.lookup_eq_some_iff.1 hlookup
      exact ⟨_, rfl, by simp⟩

theorem hasRubyFile_of_reaches {path : List Char} {t : FileTree} {names : List (List Char)}
    (ht : t.Proper) (hpath : fs.find path = .ok t) (h : t.Reaches names) :
    fs.HasRubyFile path names := by
  induction h generalizing path with
  | @file entries name bytes hmem hruby =>
    cases ht with
    | directory hnames hname htree =>
      have hname' : IsName name := hname _ hmem
      exact {
        isName := by simpa using hname'
        visible := by simp
        isRubyName := ⟨name, rfl, hruby⟩
        isFile := ⟨bytes, find_join hpath hname' (FileTree.lookup_of_mem hnames hmem)⟩ }
  | @directory entries name t names hmem hvisible hreaches ih =>
    cases ht with
    | directory hnames hname htree =>
      have hname' : IsName name := hname _ hmem
      have hne := hreaches.ne_nil
      have hrest := ih (htree _ hmem) (find_join hpath hname' (FileTree.lookup_of_mem hnames hmem))
      refine ⟨List.forall_mem_cons.2 ⟨hname', hrest.isName⟩, ?_, ?_, hrest.isFile⟩
      · rw [List.dropLast_cons_of_ne_nil hne]
        exact List.forall_mem_cons.2 ⟨hvisible, hrest.visible⟩
      · rw [List.getLast?_cons_of_ne_nil hne]
        exact hrest.isRubyName

theorem reaches_of_hasRubyFile {path : List Char} {t : FileTree} {names : List (List Char)}
    (hpath : fs.find path = .ok t) (h : fs.HasRubyFile path names) : t.Reaches names := by
  induction names generalizing path t with
  | nil =>
    obtain ⟨name, hname, -⟩ := h.isRubyName
    cases hname
  | cons name names ih =>
    obtain ⟨hname, hnames⟩ := List.forall_mem_cons.1 h.isName
    obtain ⟨bytes, hfile⟩ := h.isFile
    have hne := join_ne_nil hname.isAbsolute (ne_nil_of_find hpath)
    obtain ⟨t', ht'⟩ := exists_of_find_below hne hnames hfile
    obtain ⟨entries, rfl, hmem⟩ := exists_entry_of_find_join hpath hname ht'
    cases names with
    | nil =>
      obtain rfl : t' = .file bytes := Except.ok.inj (ht'.symm.trans hfile)
      obtain ⟨last, hlast, hruby⟩ := h.isRubyName
      obtain rfl : name = last := Option.some.inj hlast
      exact .file hmem hruby
    | cons next names =>
      obtain ⟨hvisible, hvisibles⟩ := List.forall_mem_cons.1 h.visible
      exact .directory hmem hvisible (ih ht' ⟨hnames, hvisibles, h.isRubyName, h.isFile⟩)

theorem hasRubyFile_iff_reaches (hfs : fs.root.Proper) {path : List Char} {t : FileTree}
    (hpath : fs.find path = .ok t) {names : List (List Char)} :
    fs.HasRubyFile path names ↔ t.Reaches names :=
  ⟨reaches_of_hasRubyFile hpath, hasRubyFile_of_reaches (proper_of_find hfs hpath) hpath⟩

end FileSystem

/-! ### Paths of what is reached -/

theorem Path.getLast?_join_ne (path : List Char) {name : List Char} (hname : IsName name) :
    (join path name).getLast? ≠ some '/' := by
  obtain ⟨before, hbefore⟩ := suffix_join path name
  rw [← hbefore, List.getLast?_append_of_ne_nil _ hname.ne_nil]
  exact fun hlast => hname.slash (List.mem_of_getLast? hlast)

theorem Path.components_join {path name : List Char} (hne : path ≠ [])
    (hlast : path.getLast? ≠ some '/') (hname : IsName name) :
    components (join path name) = components path ++ [name] := by
  rcases join_cases path hname.isAbsolute with ⟨hnil, -⟩ | ⟨head, rfl, -⟩ | hjoin
  · exact absurd hnil hne
  · exact absurd (by simp) hlast
  · rw [hjoin, components_append, components_of_not_mem hname.slash]

/-- A slash at the end of the path is not doubled. -/
theorem Path.exists_components_join {path : List Char} (hne : path ≠ []) :
    ∃ base, ∀ name, IsName name → components (join path name) = base ++ [name] := by
  by_cases hlast : path.getLast? = some '/'
  · obtain ⟨head, rfl⟩ := List.getLast?_eq_some_iff.1 hlast
    refine ⟨components head, fun name hname => ?_⟩
    have hjoin : join (head ++ ['/']) name = head ++ '/' :: name := by
      rw [join, hname.isAbsolute, if_neg Bool.false_ne_true, if_pos (by simp), List.append_assoc,
        List.singleton_append]
    rw [hjoin, components_append, components_of_not_mem hname.slash]
  · exact ⟨components path, fun name hname => components_join hne hlast hname⟩

/-- Behind a path without a slash at its end, names `below` it are components of their own. -/
theorem Path.components_below {path : List Char} {names : List (List Char)} (hne : path ≠ [])
    (hlast : path.getLast? ≠ some '/') (hnames : ∀ name ∈ names, IsName name) :
    components (below path names) = components path ++ names := by
  induction names generalizing path with
  | nil => exact (List.append_nil _).symm
  | cons name names ih =>
    obtain ⟨hname, hnames⟩ := List.forall_mem_cons.1 hnames
    calc components (below (join path name) names)
        = components (join path name) ++ names :=
          ih (join_ne_nil hname.isAbsolute hne) (getLast?_join_ne path hname) hnames
      _ = components path ++ name :: names := by
        rw [components_join hne hlast hname, List.append_assoc, List.singleton_append]

/-- Different names lead to different paths. -/
theorem Path.below_injective {path : List Char} (hne : path ≠ []) {names names' : List (List Char)}
    (hnames : ∀ name ∈ names, IsName name) (hnames' : ∀ name ∈ names', IsName name)
    (hfirst : names ≠ []) (hfirst' : names' ≠ [])
    (h : below path names = below path names') : names = names' := by
  obtain ⟨base, hbase⟩ := exists_components_join hne
  have hcomponents : ∀ l : List (List Char), l ≠ [] → (∀ name ∈ l, IsName name) →
      components (below path l) = base ++ l := by
    intro l hl hl'
    obtain ⟨name, more, rfl⟩ := List.exists_cons_of_ne_nil hl
    obtain ⟨hname, hmore⟩ := List.forall_mem_cons.1 hl'
    calc components (below (join path name) more)
        = components (join path name) ++ more :=
          components_below (join_ne_nil hname.isAbsolute hne) (getLast?_join_ne path hname) hmore
      _ = base ++ name :: more := by
        rw [hbase name hname, List.append_assoc, List.singleton_append]
  have heq := congrArg components h
  rw [hcomponents names hfirst hnames, hcomponents names' hfirst' hnames'] at heq
  exact List.append_cancel_left heq

/-! ### The order of a walk -/

/-- The first of two names comes before the second one. -/
def Text.Smaller (a b : List Char) : Prop := Text.le a b = true ∧ a ≠ b

/-- Which of two files below a directory is found first, by the names on the way to them: in one
directory the one with the smaller name, before files of subdirectories; of two subdirectories what
is in the one with the smaller name; and in one subdirectory the same holds again. -/
inductive Precedes : List (List Char) → List (List Char) → Prop
  | files {a b : List Char} : Text.Smaller a b → Precedes [a] [b]
  | beforeDirectories {a b : List Char} {names : List (List Char)} : names ≠ [] →
      Precedes [a] (b :: names)
  | directories {a b : List Char} {names names' : List (List Char)} : names ≠ [] → names' ≠ [] →
      Text.Smaller a b → Precedes (a :: names) (b :: names')
  | inside {a : List Char} {names names' : List (List Char)} : Precedes names names' →
      Precedes (a :: names) (a :: names')

theorem Precedes.ne {a b : List (List Char)} (h : Precedes a b) : a ≠ b := by
  induction h with
  | files hlt => exact fun heq => hlt.2 (List.cons.inj heq).1
  | beforeDirectories hne => exact fun heq => hne (List.cons.inj heq).2.symm
  | directories _ _ hlt => exact fun heq => hlt.2 (List.cons.inj heq).1
  | inside _ ih => exact fun heq => ih (List.cons.inj heq).2

/-- `sortByName` puts things with distinct names in strict order by their names. -/
theorem pairwise_sortByName {α : Type} {l : List (List Char × α)} (h : (l.map (·.1)).Nodup) :
    (sortByName l).Pairwise fun a b => Text.Smaller a.1 b.1 := by
  have hle : (sortByName l).Pairwise fun a b => Text.le a.1 b.1 = true := by
    refine List.pairwise_mergeSort (fun a b c hab hbc => ?_) (fun a b => ?_) l
    · exact Text.le_trans hab hbc
    · exact Text.le_total a.1 b.1
  have hne : (sortByName l).Pairwise fun a b => a.1 ≠ b.1 := by
    rw [← List.pairwise_map (R := (· ≠ ·))]
    exact (((List.mergeSort_perm l _).map (·.1)).nodup_iff).2 h
  exact hle.and hne

/-! ### Walking a tree -/

/-- The directories among entries that are not hidden. -/
def visibleDirectories (entries : List (List Char × FileTree)) : List (List Char × FileTree) :=
  entries.filter fun entry => entry.2.isDirectory && !Glob.isHidden entry.1

/-- The Ruby files among entries. -/
def rubyEntries (entries : List (List Char × FileTree)) : List (List Char × FileTree) :=
  entries.filter fun entry => !entry.2.isDirectory && isRubyName entry.1

theorem rubyFilesBelow_eq (path : List Char) (entries : List (List Char × FileTree)) :
    rubyFilesBelow path entries =
      (visibleDirectories entries).map fun entry => (entry.1, rubyFiles (join path entry.1) entry.2) := by
  induction entries with
  | nil => rfl
  | cons entry rest ih =>
    obtain ⟨name, tree⟩ := entry
    rw [rubyFilesBelow, ih, visibleDirectories, visibleDirectories, List.filter_cons]
    split
    · rfl
    · rfl

/-- `rubyFiles` of a directory are its own, in order, and then those of its subdirectories, in
order. -/
theorem rubyFiles_directory (path : List Char) (entries : List (List Char × FileTree)) :
    rubyFiles path (.directory entries) =
      (sortByName (rubyEntries entries)).map (fun entry => join path entry.1) ++
        (sortByName (visibleDirectories entries)).flatMap fun entry =>
          rubyFiles (join path entry.1) entry.2 := by
  have hfiles : ((rubyEntries entries).map (·.1)).mergeSort Text.le =
      (sortByName (rubyEntries entries)).map (·.1) := by
    rw [sortByName, List.map_mergeSort]
    exact fun _ _ _ _ => rfl
  have hdirectories : sortByName (rubyFilesBelow path entries) =
      (sortByName (visibleDirectories entries)).map fun entry =>
        (entry.1, rubyFiles (join path entry.1) entry.2) := by
    rw [rubyFilesBelow_eq, sortByName, sortByName, List.map_mergeSort]
    exact fun _ _ _ _ => rfl
  calc rubyFiles path (.directory entries)
      = (((rubyEntries entries).map (·.1)).mergeSort Text.le).map (join path) ++
          (sortByName (rubyFilesBelow path entries)).flatMap (·.2) := rfl
    _ = _ := by rw [hfiles, hdirectories, List.map_map, List.flatMap_map]; rfl

/-- A walk: it comes to all that is reached, in order, and below every path these are the files. -/
structure IsWalk (Reached : List (List Char) → Prop) (files : List Char → List (List Char))
    (found : List (List (List Char))) : Prop where
  pairwise : found.Pairwise Precedes
  mem_iff : ∀ names, names ∈ found ↔ Reached names
  files_eq : ∀ path, files path = found.map (below path)

/-- A walk through a tree. -/
abbrev FileTree.IsWalk (t : FileTree) (found : List (List (List Char))) : Prop :=
  TypeNotes.IsWalk t.Reaches (fun path => rubyFiles path t) found

/-- A walk through directories, one after the other. -/
abbrev IsWalkOf (dirs : List (List Char × FileTree)) (found : List (List (List Char))) : Prop :=
  IsWalk (fun names => ∃ dir ∈ dirs, ∃ rest, dir.2.Reaches rest ∧ names = dir.1 :: rest)
    (fun path => dirs.flatMap fun dir => rubyFiles (join path dir.1) dir.2) found

/-- The walks through directories, one after the other, make up a walk through all of them. -/
theorem exists_walk_directories {dirs : List (List Char × FileTree)}
    (hsorted : dirs.Pairwise fun a b => Text.Smaller a.1 b.1)
    (h : ∀ dir ∈ dirs, ∃ found, dir.2.IsWalk found) : ∃ found, IsWalkOf dirs found := by
  induction dirs with
  | nil => exact ⟨[], .nil, by simp, fun _ => rfl⟩
  | cons dir dirs ih =>
    obtain ⟨hfirst, hsorted⟩ := List.pairwise_cons.1 hsorted
    obtain ⟨⟨found, hwalk⟩, hwalks⟩ := List.forall_mem_cons.1 h
    obtain ⟨more, hpairwise, hmem, hfiles⟩ := ih hsorted hwalks
    refine ⟨found.map (dir.1 :: ·) ++ more, List.pairwise_append.2 ⟨?_, hpairwise, ?_⟩, ?_, ?_⟩
    · exact List.pairwise_map.2 (hwalk.pairwise.imp .inside)
    · intro a ha b hb
      obtain ⟨rest, hrest, rfl⟩ := List.mem_map.1 ha
      obtain ⟨dir', hdir', rest', hrest', rfl⟩ := (hmem b).1 hb
      exact .directories ((hwalk.mem_iff rest).1 hrest).ne_nil hrest'.ne_nil (hfirst dir' hdir')
    · intro names
      rw [List.mem_append, List.exists_mem_cons_iff, hmem, List.mem_map]
      simp only [hwalk.mem_iff, eq_comm]
    · intro path
      simp only [List.flatMap_cons]
      rw [hwalk.files_eq, hfiles, List.map_append, List.map_map]
      rfl

theorem nodup_names_filter {entries : List (List Char × FileTree)}
    (h : (entries.map (·.1)).Nodup) (p : List Char × FileTree → Bool) :
    ((entries.filter p).map (·.1)).Nodup :=
  h.sublist (List.filter_sublist.map _)

theorem mem_rubyEntries_iff {entries : List (List Char × FileTree)} {entry : List Char × FileTree} :
    entry ∈ rubyEntries entries ↔
      entry ∈ entries ∧ (∃ bytes, entry.2 = .file bytes) ∧ isRubyName entry.1 = true := by
  obtain ⟨name, tree⟩ := entry
  rw [rubyEntries, List.mem_filter, Bool.and_eq_true]
  cases tree with
  | file bytes => simp [FileTree.isDirectory]
  | directory entries' => simp [FileTree.isDirectory]

theorem mem_visibleDirectories_iff {entries : List (List Char × FileTree)}
    {entry : List Char × FileTree} : entry ∈ visibleDirectories entries ↔
      entry ∈ entries ∧ entry.2.isDirectory = true ∧ Glob.isHidden entry.1 = false := by
  rw [visibleDirectories, List.mem_filter, Bool.and_eq_true, Bool.not_eq_true']

/-- What is reached from a directory is one of its Ruby files, or is reached from one of its visible
directories. -/
theorem FileTree.reaches_directory_iff {entries : List (List Char × FileTree)}
    {names : List (List Char)} : Reaches (.directory entries) names ↔
      (∃ entry ∈ rubyEntries entries, names = [entry.1]) ∨
        ∃ dir ∈ visibleDirectories entries, ∃ rest, dir.2.Reaches rest ∧ names = dir.1 :: rest := by
  constructor
  · intro h
    cases h with
    | @file _ name bytes hmem hruby =>
      exact .inl ⟨(name, .file bytes), mem_rubyEntries_iff.2 ⟨hmem, ⟨bytes, rfl⟩, hruby⟩, rfl⟩
    | @directory _ name t rest hmem hvisible hreaches =>
      have hdirectory : t.isDirectory = true := by
        cases hreaches with
        | file => rfl
        | directory => rfl
      exact .inr ⟨(name, t), mem_visibleDirectories_iff.2 ⟨hmem, hdirectory, hvisible⟩, rest,
        hreaches, rfl⟩
  · rintro (⟨⟨name, t⟩, hentry, rfl⟩ | ⟨⟨name, t⟩, hdir, rest, hreaches, rfl⟩)
    · obtain ⟨hmem, ⟨bytes, hfile⟩, hruby⟩ := mem_rubyEntries_iff.1 hentry
      obtain rfl : t = .file bytes := hfile
      exact .file hmem hruby
    · obtain ⟨hmem, -, hvisible⟩ := mem_visibleDirectories_iff.1 hdir
      exact .directory hmem hvisible hreaches

/-- `rubyFiles` of a directory are found by a walk through it. -/
theorem FileTree.Proper.exists_walk {t : FileTree} (ht : t.Proper) : ∃ found, t.IsWalk found := by
  induction ht with
  | file => exact ⟨[], .nil, fun names => iff_of_false (List.not_mem_nil) nofun, fun _ => rfl⟩
  | @directory entries hnames hname htree ih =>
    have hdirs := pairwise_sortByName (nodup_names_filter hnames
      fun entry => entry.2.isDirectory && !Glob.isHidden entry.1)
    have hfiles := pairwise_sortByName (nodup_names_filter hnames
      fun entry => !entry.2.isDirectory && isRubyName entry.1)
    obtain ⟨found, hpairwise, hmem, hbelow⟩ := exists_walk_directories hdirs fun dir hdir =>
      ih dir (mem_visibleDirectories_iff.1 (List.mem_mergeSort.1 hdir)).1
    refine ⟨(sortByName (rubyEntries entries)).map (fun entry => [entry.1]) ++ found, ?_, ?_, ?_⟩
    · refine List.pairwise_append.2 ⟨?_, hpairwise, ?_⟩
      · exact List.pairwise_map.2 (hfiles.imp .files)
      · intro a ha b hb
        obtain ⟨entry, -, rfl⟩ := List.mem_map.1 ha
        obtain ⟨dir, -, rest, hrest, rfl⟩ := (hmem b).1 hb
        exact .beforeDirectories hrest.ne_nil
    · intro names
      rw [List.mem_append, hmem, reaches_directory_iff, List.mem_map]
      simp only [sortByName, List.mem_mergeSort, eq_comm]
      rfl
    · intro path
      rw [rubyFiles_directory, List.map_append, List.map_map]
      exact congrArg _ (hbelow path)

/-! ### Collecting -/

variable {fs : FileSystem}

theorem exists_of_isDirectory {path : List Char} (h : fs.isDirectory path = true) :
    ∃ entries, fs.find path = .ok (.directory entries) := by
  rw [FileSystem.isDirectory] at h
  cases hfind : fs.find path with
  | error fault => rw [hfind] at h; cases h
  | ok t =>
    rw [hfind] at h
    cases t with
    | file => cases h
    | directory entries => exact ⟨entries, rfl⟩

/-- The files that a walk comes to (`IsWalk`) are different ones. -/
theorem IsWalk.nodup_files {found : List (List (List Char))}
    {Reached : List (List Char) → Prop} {files : List Char → List (List Char)}
    (h : IsWalk Reached files found) {path : List Char} (hne : path ≠ [])
    (hreached : ∀ names, Reached names → names ≠ [] ∧ ∀ name ∈ names, IsName name) :
    (found.map (below path)).Nodup := by
  refine List.Nodup.map_on (fun a ha b hb heq => ?_) (h.pairwise.imp Precedes.ne)
  obtain ⟨ha, ha'⟩ := hreached a ((h.mem_iff a).1 ha)
  obtain ⟨hb, hb'⟩ := hreached b ((h.mem_iff b).1 hb)
  exact below_injective hne ha' hb' ha hb heq

/-- **Collecting is a union.** No file is collected twice, and patterns behind others add what they
stand for themselves, in the same order, without what the others stand for. A directory contributes
exactly the Ruby files that are reached from it without going through a hidden directory: the files
of each directory by their names, before those of its subdirectories, by the names of these. So it
does as an argument, and wherever a glob stands for it. -/
theorem collectFiles_union (hfs : fs.root.Proper) :
    (∀ ps, (collectFiles fs ps).Nodup) ∧
      (∀ ps qs, collectFiles fs (ps ++ qs) =
        collectFiles fs ps ++ (collectFiles fs qs).filter (· ∉ collectFiles fs ps)) ∧
      ∀ path, fs.isDirectory path = true → ∃ found : List (List (List Char)),
        (∀ names, names ∈ found ↔ fs.HasRubyFile path names) ∧ found.Pairwise Precedes ∧
          (Glob.hasMagic path = false → collectFiles fs [path] = found.map (below path)) ∧
          ∀ isGlob, filesAt fs isGlob path = found.map (below path) := by
  refine ⟨fun ps => nodup_eraseDups _, fun ps qs => ?_, fun path hdirectory => ?_⟩
  · rw [collectFiles, List.flatMap_append, eraseDups_append_eq]
    rfl
  · obtain ⟨entries, hfind⟩ := exists_of_isDirectory hdirectory
    obtain ⟨found, hwalk⟩ := (FileSystem.proper_of_find hfs hfind).exists_walk
    have hreached : ∀ names, fs.HasRubyFile path names ↔ (FileTree.directory entries).Reaches names :=
      fun names => FileSystem.hasRubyFile_iff_reaches hfs hfind
    have hfiles : ∀ isGlob, filesAt fs isGlob path = found.map (below path) := by
      intro isGlob
      rw [filesAt, hfind]
      exact hwalk.files_eq path
    have hnodup : (found.map (below path)).Nodup :=
      hwalk.nodup_files (FileSystem.ne_nil_of_find hfind) fun names hnames =>
        ⟨hnames.ne_nil, ((hreached names).2 hnames).isName⟩
    refine ⟨found, fun names => (hwalk.mem_iff names).trans (hreached names).symm, hwalk.pairwise,
      fun hmagic => ?_, hfiles⟩
    rw [collectFiles, List.flatMap_singleton, filesOf, hmagic, if_neg Bool.false_ne_true, hfiles]
    exact eraseDups_of_nodup hnodup

/-- A directory with a hidden one in it, and behind it a glob that stands for the same files. -/
theorem collectFiles_union_below_glob :
    let fs : FileSystem := ⟨.directory [("lib".toList, .directory
      [("sub".toList, .directory [("b.rb".toList, .file [])]), ("z.rb".toList, .file []),
        (".git".toList, .directory [("c.rb".toList, .file [])]), (".a.rb".toList, .file [])])], []⟩
    collectFiles fs ["lib".toList] = ["lib/.a.rb", "lib/z.rb", "lib/sub/b.rb"].map String.toList ∧
      collectFiles fs ["lib".toList, "**".toList] =
        collectFiles fs ["lib".toList] ++
          (collectFiles fs ["**".toList]).filter (· ∉ collectFiles fs ["lib".toList]) ∧
      ∃ found : List (List (List Char)),
        (∀ names, names ∈ found ↔ fs.HasRubyFile "lib".toList names) ∧ found.Pairwise Precedes ∧
          collectFiles fs ["lib".toList] = found.map (below "lib".toList) := by
  intro fs
  have hfs : fs.root.Proper := by
    have hfile : (FileTree.file []).Proper := .file []
    have hsub : (FileTree.directory [("b.rb".toList, .file [])]).Proper :=
      .directory (by decide) (by decide) (List.forall_mem_singleton.2 hfile)
    have hgit : (FileTree.directory [("c.rb".toList, .file [])]).Proper :=
      .directory (by decide) (by decide) (List.forall_mem_singleton.2 hfile)
    refine .directory (by decide) (by decide) (List.forall_mem_singleton.2 ?_)
    refine .directory (by decide) (by decide) ?_
    simp only [List.forall_mem_cons, hfile, hsub, hgit, true_and, List.not_mem_nil,
      false_implies, implies_true]
  obtain ⟨-, hunion, hdirectory⟩ := collectFiles_union hfs
  obtain ⟨found, hmem, hpairwise, hcollect, -⟩ := hdirectory "lib".toList rfl
  exact ⟨by decide_cbv, hunion ["lib".toList] ["**".toList], found, hmem, hpairwise, hcollect rfl⟩

end TypeNotes
