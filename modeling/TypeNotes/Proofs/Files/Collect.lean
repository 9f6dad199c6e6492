import Mathlib
import TypeNotes.Proofs.Distinct
import TypeNotes.Proofs.Files.Glob

/-!
# Files that are named explicitly

A file is collected if its path is among the patterns, whatever its name and whatever the other
patterns are, provided that its path is no glob. If it is one, the path stands for the files that it
spells, and the file is collected for sure only if it is one of these and has the name of a Ruby file
(`mem_filesOf_self_iff`). So collecting once more what was collected may change it, but only through
paths that are globs (`filesOf_of_mem_collectFiles`). Both are put together in
`collectFiles_explicit`, and files are lost in both ways (`explicit_file_left_out`).
-/

namespace TypeNotes

open TypeNotes.Path

/-! ### The files of a directory -/

theorem mem_rubyFilesBelow {path name : List Char} {files : List (List Char)}
    {entries : List (List Char × FileTree)} (h : (name, files) ∈ rubyFilesBelow path entries) :
    ∃ tree, (name, tree) ∈ entries ∧ files = rubyFiles (join path name) tree := by
  induction entries with
  | nil => cases h
  | cons entry rest ih =>
    obtain ⟨name', tree⟩ := entry
    rw [rubyFilesBelow, List.mem_append] at h
    rcases h with h | h
    · rw [List.mem_ite_nil_right, List.mem_singleton, Prod.mk.injEq] at h
      obtain ⟨-, rfl, rfl⟩ := h
      exact ⟨tree, List.mem_cons_self, rfl⟩
    · obtain ⟨tree', hmem, hfiles⟩ := ih h
      exact ⟨tree', List.mem_cons_of_mem _ hmem, hfiles⟩

/-- `rubyFiles` of a directory are its own, and those of the directories in it. -/
theorem cases_of_mem_rubyFiles {path file : List Char} {entries : List (List Char × FileTree)}
    (h : file ∈ rubyFiles path (.directory entries)) :
    (∃ name bytes, (name, .file bytes) ∈ entries ∧ isRubyName name = true ∧ file = join path name) ∨
      ∃ name tree, (name, tree) ∈ entries ∧ file ∈ rubyFiles (join path name) tree := by
  rw [rubyFiles, List.mem_append] at h
  rcases h with h | h
  · obtain ⟨name, hname, rfl⟩ := List.mem_map.1 h
    rw [List.mem_mergeSort] at hname
    obtain ⟨⟨name, tree⟩, hentry, rfl⟩ := List.mem_map.1 hname
    obtain ⟨hmem, hruby⟩ := List.mem_filter.1 hentry
    cases tree with
    | file bytes => exact .inl ⟨name, bytes, hmem, hruby, rfl⟩
    | directory entries' => cases hruby
  · obtain ⟨⟨name, files⟩, hfiles, hfile⟩ := List.mem_flatMap.1 h
    rw [sortByName, List.mem_mergeSort] at hfiles
    obtain ⟨tree, hmem, rfl⟩ := mem_rubyFilesBelow hfiles
    exact .inr ⟨name, tree, hmem, hfile⟩

variable {fs : FileSystem}

/-- `rubyFiles` below a directory are files with names of Ruby files, and their paths go on from
that of the directory. -/
theorem spec_of_mem_rubyFiles {t : FileTree} (ht : t.Proper) {path file : List Char}
    (hpath : fs.find path = .ok t) (h : file ∈ rubyFiles path t) :
    (∃ bytes, fs.find file = .ok (.file bytes)) ∧ isRubyName file = true ∧
      countRuby path < countRuby file := by
  induction ht generalizing path with
  | file => simp [rubyFiles] at h
  | @directory entries hnames hname htree ih =>
    rcases cases_of_mem_rubyFiles h with ⟨name, bytes, hmem, hruby, rfl⟩ | ⟨name, tree, hmem, hfile⟩
    · have hname' : IsName name := hname _ hmem
      have hfind := FileSystem.find_join hpath hname' (FileTree.lookup_of_mem hnames hmem)
      refine ⟨⟨bytes, hfind⟩, isRubyName_of_suffix hruby (suffix_join path name), ?_⟩
      rw [countRuby_join path hname'.isAbsolute, countRuby_of_not_mem hname'.slash, if_pos hruby]
      exact Nat.lt_succ_self _
    · have hname' : IsName name := hname _ hmem
      have hfind := FileSystem.find_join hpath hname' (FileTree.lookup_of_mem hnames hmem)
      obtain ⟨hexists, hruby, hlt⟩ := ih _ hmem hfind hfile
      rw [countRuby_join path hname'.isAbsolute] at hlt
      exact ⟨hexists, hruby, by omega⟩

/-! ### The files of a path -/

theorem filesAt_of_file {file : List Char} {bytes : List UInt8}
    (h : fs.find file = .ok (.file bytes)) (isGlob : Bool) :
    filesAt fs isGlob file = if isGlob && !isRubyName file then [] else [file] := by
  rw [filesAt, h]

/-- `filesAt` a path are those below it, or the path itself. -/
theorem cases_of_mem_filesAt (hfs : fs.root.Proper) {isGlob : Bool} {path file : List Char}
    (h : file ∈ filesAt fs isGlob path) :
    ((∃ bytes, fs.find file = .ok (.file bytes)) ∧ isRubyName file = true ∧
      countRuby path < countRuby file) ∨
    file = path ∧ (∀ entries, fs.find path ≠ .ok (.directory entries)) ∧
      (isGlob = true → isRubyName path = true) := by
  rw [filesAt] at h
  split at h
  · rename_i entries hfind
    exact .inl (spec_of_mem_rubyFiles (FileSystem.proper_of_find hfs hfind) hfind h)
  · rename_i hnot
    split at h
    · cases h
    · rename_i hruby
      rw [List.mem_singleton] at h
      refine .inr ⟨h, hnot, ?_⟩
      rintro rfl
      simpa using hruby

/-- What is collected is no directory: taken as it is, it stands for itself. -/
theorem filesAt_of_mem_filesOf (hfs : fs.root.Proper) {pattern file : List Char}
    (h : file ∈ filesOf fs pattern) : filesAt fs false file = [file] := by
  obtain ⟨isGlob, path, h⟩ : ∃ isGlob path, file ∈ filesAt fs isGlob path := by
    rw [filesOf] at h
    split at h
    · obtain ⟨path, -, h⟩ := List.mem_flatMap.1 h
      exact ⟨true, path, h⟩
    · exact ⟨false, pattern, h⟩
  rcases cases_of_mem_filesAt hfs h with ⟨⟨bytes, hfind⟩, -⟩ | ⟨rfl, hnot, -⟩
  · exact filesAt_of_file hfind false
  · rw [filesAt]
    split
    · rename_i entries hfind
      exact absurd hfind (hnot entries)
    · rfl

/-- A path that is a glob is one of `filesOf` itself exactly if it has the name of a Ruby file and
is one of the paths that it spells. -/
theorem mem_filesOf_self_iff (hfs : fs.root.Proper) {file : List Char} {bytes : List UInt8}
    (hfile : fs.find file = .ok (.file bytes)) : file ∈ filesOf fs file ↔
      (Glob.hasMagic file = true → isRubyName file = true ∧ file ∈ Glob.expand fs file) := by
  rw [filesOf]
  split
  · rename_i hmagic
    rw [forall_prop_of_true hmagic]
    constructor
    · intro h
      obtain ⟨path, hpath, h⟩ := List.mem_flatMap.1 h
      rcases cases_of_mem_filesAt hfs h with ⟨-, -, hlt⟩ | ⟨rfl, -, hruby⟩
      · -- Nothing below a path that the glob stands for has as few Ruby components as the glob.
        exact absurd (Glob.countRuby_le_of_mem_expand hfs hpath) (Nat.not_le_of_lt hlt)
      · exact ⟨hruby rfl, hpath⟩
    · rintro ⟨hruby, hexpand⟩
      refine List.mem_flatMap.2 ⟨file, hexpand, ?_⟩
      rw [filesAt_of_file hfile, hruby]
      exact List.mem_singleton_self file
  · rename_i hmagic
    rw [filesAt_of_file hfile]
    exact iff_of_true (List.mem_singleton_self file) fun h => absurd h hmagic

/-! ### Explicitly named files -/

theorem mem_collectFiles_self_iff (file : List Char) :
    (∀ patterns, file ∈ patterns → file ∈ collectFiles fs patterns) ↔ file ∈ filesOf fs file := by
  constructor
  · intro h
    have hself := h [file] (List.mem_singleton_self file)
    rwa [collectFiles, List.mem_eraseDups, List.flatMap_singleton] at hself
  · intro h patterns hmem
    rw [collectFiles, List.mem_eraseDups]
    exact List.mem_flatMap.2 ⟨file, hmem, h⟩

/-- What was collected stands for itself, unless its path is a glob. -/
theorem filesOf_of_mem_collectFiles (hfs : fs.root.Proper) {patterns : List (List Char)}
    {file : List Char} (h : file ∈ collectFiles fs patterns) (hmagic : Glob.hasMagic file = false) :
    filesOf fs file = [file] := by
  rw [collectFiles, List.mem_eraseDups] at h
  obtain ⟨pattern, -, hmem⟩ := List.mem_flatMap.1 h
  rw [filesOf, hmagic]
  exact filesAt_of_mem_filesOf hfs hmem

theorem collectFiles_of_nodup {files : List (List Char)} (hfiles : files.Nodup)
    (h : ∀ file ∈ files, filesOf fs file = [file]) : collectFiles fs files = files := by
  rw [collectFiles, List.flatMap_congr h, List.flatMap_singleton']
  exact eraseDups_of_nodup hfiles

/-- **Explicitly named files.** A file is collected by every list of patterns that holds its path,
whatever its name is, if and only if its path has no wildcard, or it has the name of a Ruby file and
is one of the files that its path spells as a glob. Collecting once more what was collected gives the
same files, if every collected path with a wildcard stands for itself alone. -/
theorem collectFiles_explicit (hfs : fs.root.Proper) :
    (∀ file bytes, fs.find file = .ok (.file bytes) →
      ((∀ patterns, file ∈ patterns → file ∈ collectFiles fs patterns) ↔
        (Glob.hasMagic file = true → isRubyName file = true ∧ file ∈ Glob.expand fs file))) ∧
    ∀ patterns, (∀ file ∈ collectFiles fs patterns, Glob.hasMagic file = true →
      filesOf fs file = [file]) →
        collectFiles fs (collectFiles fs patterns) = collectFiles fs patterns := by
  refine ⟨fun file bytes hfile => ?_, fun patterns h => ?_⟩
  · rw [mem_collectFiles_self_iff, mem_filesOf_self_iff hfs hfile]
  · refine collectFiles_of_nodup (nodup_eraseDups _) fun file hfile => ?_
    cases hmagic : Glob.hasMagic file with
    | true => exact h file hfile hmagic
    | false => exact filesOf_of_mem_collectFiles hfs hfile hmagic

/-- A file with a wildcard in its name, which as a glob spells the name itself. -/
theorem collectFiles_explicit_wildcard :
    let fs : FileSystem := ⟨.directory [("?.rb".toList, .file [])], []⟩
    (∀ patterns, "?.rb".toList ∈ patterns → "?.rb".toList ∈ collectFiles fs patterns) ∧
      collectFiles fs (collectFiles fs [".".toList]) = collectFiles fs [".".toList] := by
  intro fs
  have hfs : fs.root.Proper :=
    .directory (by decide) (by decide) (List.forall_mem_singleton.2 (.file []))
  have hcollected : collectFiles fs [".".toList] = ["./?.rb".toList] := by decide_cbv
  have hself : filesOf fs "./?.rb".toList = ["./?.rb".toList] := by decide_cbv
  obtain ⟨hmem, hcollect⟩ := collectFiles_explicit hfs
  refine ⟨(hmem _ [] rfl).2 fun _ => ⟨by decide, by decide_cbv⟩, hcollect _ ?_⟩
  rw [hcollected]
  exact List.forall_mem_singleton.2 fun _ => hself

/-- A file whose path is a glob for another name is not collected by its own path, and so neither
once it was collected from its directory; and one that is no Ruby file is not either. -/
theorem explicit_file_left_out :
    let fs : FileSystem := ⟨.directory [("a[1].rb".toList, .file []), ("a?.txt".toList, .file [])], []⟩
    fs.find "a?.txt".toList = .ok (.file []) ∧
      "a?.txt".toList ∉ collectFiles fs ["a?.txt".toList] ∧
      fs.find "a[1].rb".toList = .ok (.file []) ∧
      "a[1].rb".toList ∉ collectFiles fs ["a[1].rb".toList] ∧
      collectFiles fs (collectFiles fs [".".toList]) ≠ collectFiles fs [".".toList] := by
  refine ⟨rfl, ?_, rfl, ?_, ?_⟩
  · decide_cbv
  · decide_cbv
  · decide_cbv

end TypeNotes
