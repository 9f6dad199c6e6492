import Mathlib.Data.List.Nodup
import TypeNotes.Files.Tree

/-!
# Trees as they are on a disk

In a proper tree every entry has a name of its own, which can be written as one component of a path.
Then a path with such a name behind it leads to the entry with the name (`FileSystem.find_join`), so
what is found by going through entries is found by its path as well.
-/

namespace TypeNotes

namespace Path

/-- Texts that can be names of entries: not empty, without slashes, and neither one nor two dots. -/
structure IsName (name : List Char) : Prop where
  ne_nil : name ≠ []
  slash : '/' ∉ name
  here : name ≠ ['.']
  up : name ≠ ['.', '.']

instance (name : List Char) : Decidable (IsName name) :=
  decidable_of_iff (name ≠ [] ∧ '/' ∉ name ∧ name ≠ ['.'] ∧ name ≠ ['.', '.'])
    ⟨fun ⟨hne, hslash, hhere, hup⟩ => ⟨hne, hslash, hhere, hup⟩,
      fun ⟨hne, hslash, hhere, hup⟩ => ⟨hne, hslash, hhere, hup⟩⟩

/-- A path without a slash is relative. -/
theorem isAbsolute_of_not_mem {s : List Char} (h : '/' ∉ s) : isAbsolute s = false := by
  rw [isAbsolute, beq_eq_false_iff_ne]
  intro hhead
  exact h (List.mem_of_mem_head? hhead)

/-- The name of an entry is a relative path. -/
theorem IsName.isAbsolute {name : List Char} (h : IsName name) : isAbsolute name = false :=
  isAbsolute_of_not_mem h.slash

/-! ### Components -/

/-- Every path has a component, if only an empty one. -/
theorem components_ne_nil (s : List Char) : components s ≠ [] := by
  fun_cases components s with
  | case1 => exact List.cons_ne_nil _ _
  | case2 => exact List.cons_ne_nil _ _
  | case3 => exact List.cons_ne_nil _ _
  | case4 => exact List.cons_ne_nil _ _

/-- A path without a slash is its one component. -/
theorem components_of_not_mem {s : List Char} (h : '/' ∉ s) : components s = [s] := by
  induction s with
  | nil => rfl
  | cons c s ih =>
    rw [List.mem_cons, not_or] at h
    have hc : ¬ (c == '/') = true := by simpa using Ne.symm h.1
    rw [components, if_neg hc, ih h.2]

/-- A slash ends one of the `components`. -/
theorem components_append (s t : List Char) :
    components (s ++ '/' :: t) = components s ++ components t := by
  induction s with
  | nil => rfl
  | cons c s ih =>
    obtain ⟨part, more, hparts⟩ := List.exists_cons_of_ne_nil (components_ne_nil s)
    rw [List.cons_append, components, components, ih, hparts]
    split
    · rfl
    · rfl

/-! ### Joining -/

/-- `Path.join` puts a relative path behind a slash, unless the directory is empty. -/
theorem join_cases (directory : List Char) {path : List Char} (h : isAbsolute path = false) :
    directory = [] ∧ join directory path = path ∨
      (∃ head, directory = head ++ ['/'] ∧ join directory path = head ++ '/' :: path) ∨
      join directory path = directory ++ '/' :: path := by
  rw [join, h]
  simp only [Bool.false_eq_true, if_false]
  split
  · rename_i hend
    rw [Bool.or_eq_true, List.isEmpty_iff, beq_iff_eq] at hend
    rcases hend with rfl | hlast
    · exact .inl ⟨rfl, rfl⟩
    · obtain ⟨head, rfl⟩ := List.getLast?_eq_some_iff.1 hlast
      exact .inr (.inl ⟨head, rfl, by simp⟩)
  · exact .inr (.inr rfl)

/-- `Path.join` ends with its second part. -/
theorem suffix_join (directory path : List Char) : path <:+ join directory path := by
  rw [join]
  split
  · exact List.suffix_rfl
  split
  · exact List.suffix_append directory path
  · exact (List.suffix_cons '/' path).trans (List.suffix_append directory _)

/-- A path joined to a directory is not empty. -/
theorem join_ne_nil {directory path : List Char} (h : isAbsolute path = false)
    (hne : directory ≠ []) : join directory path ≠ [] := by
  rcases join_cases directory h with ⟨hnil, -⟩ | ⟨head, -, hjoin⟩ | hjoin
  · exact absurd hnil hne
  · simp [hjoin]
  · simp [hjoin]

/-- A relative path joined to a directory is absolute if the directory is. -/
theorem isAbsolute_join {directory path : List Char} (h : isAbsolute path = false)
    (hne : directory ≠ []) : isAbsolute (join directory path) = isAbsolute directory := by
  obtain ⟨c, more, rfl⟩ := List.exists_cons_of_ne_nil hne
  rcases join_cases (c :: more) h with ⟨hnil, -⟩ | ⟨head, hhead, hjoin⟩ | hjoin
  · exact absurd hnil hne
  · rw [hjoin, hhead]
    cases head with
    | nil => rfl
    | cons d head => rfl
  · rw [hjoin]
    rfl

end Path

/-! ### Proper trees -/

/-- Every entry has a name, and no other entry of its directory has the same one. -/
inductive FileTree.Proper : FileTree → Prop
  | file (bytes : List UInt8) : Proper (.file bytes)
  | directory {entries : List (List Char × FileTree)} (hnames : (entries.map (·.1)).Nodup)
    (hname : ∀ entry ∈ entries, Path.IsName entry.1) (htree : ∀ entry ∈ entries, Proper entry.2) :
    Proper (.directory entries)

/-- With names that are all different, every entry is found by its name. -/
theorem FileTree.lookup_of_mem {entries : List (List Char × FileTree)}
    (hnames : (entries.map (·.1)).Nodup) {name : List Char} {t : FileTree}
    (h : (name, t) ∈ entries) : entries.lookup name = some t := by
  obtain ⟨before, after, rfl⟩ := List.append_of_mem h
  refine List.lookup_eq_some_iff.2 ⟨before, after, rfl, ?_⟩
  intro entry hentry
  rw [List.map_append, List.map_cons] at hnames
  have hne := (List.pairwise_append.1 hnames).2.2 _ (List.mem_map_of_mem hentry) _ List.mem_cons_self
  exact bne_iff_ne.2 (Ne.symm hne)

namespace FileSystem

/-! ### Following components -/

/-- From a directory the next component leads on as it says: an empty one or `.` stays, `..` goes
up, and a name goes down to its entry. -/
theorem follow_directory (entries : List (List Char × FileTree)) (above : List FileTree)
    (part : List Char) (rest : List (List Char)) :
    follow (.directory entries) above (part :: rest) =
      if part.isEmpty || part == ['.'] then follow (.directory entries) above rest
      else if part == ['.', '.'] then
        match above with
        | [] => follow (.directory entries) [] rest
        | parent :: higher => follow parent higher rest
      else match entries.lookup part with
        | none => .error .notFound
        | some child => follow child (.directory entries :: above) rest := rfl

/-- `follow` follows components one after the other. -/
theorem follow_append (tree : FileTree) (above : List FileTree) (a b : List (List Char)) :
    follow tree above (a ++ b) =
      (follow tree above a).bind fun place => follow place.1 place.2 b := by
  induction a generalizing tree above with
  | nil => rfl
  | cons part a ih =>
    rw [List.cons_append]
    cases tree with
    | file => rfl
    | directory entries =>
      rw [follow_directory, follow_directory]
      split
      · exact ih _ _
      split
      · cases above with
        | nil => exact ih _ _
        | cons parent higher => exact ih _ _
      · cases entries.lookup part with
        | none => rfl
        | some child => exact ih _ _

/-- `follow` a name leads to its entry. -/
theorem follow_name {entries : List (List Char × FileTree)} {name : List Char} {child : FileTree}
    (hname : Path.IsName name) (hchild : entries.lookup name = some child)
    (above : List FileTree) :
    follow (.directory entries) above [name] = .ok (child, .directory entries :: above) := by
  have hstay : (name.isEmpty || name == ['.']) = false := by
    simp [hname.ne_nil, hname.here]
  have hup : (name == ['.', '.']) = false := by
    simp [hname.up]
  rw [follow_directory, hstay, hup, hchild]
  rfl

/-- What is found, and what is above it, is proper if the tree is and what is above that. -/
theorem proper_of_follow {tree : FileTree} {above : List FileTree} {parts : List (List Char)}
    {place : FileTree × List FileTree} (htree : tree.Proper) (habove : ∀ t ∈ above, t.Proper)
    (h : follow tree above parts = .ok place) : place.1.Proper ∧ ∀ t ∈ place.2, t.Proper := by
  induction parts generalizing tree above with
  | nil =>
    obtain rfl := Except.ok.inj h
    exact ⟨htree, habove⟩
  | cons part parts ih =>
    cases htree with
    | file => cases h
    | @directory entries hnames hname hentries =>
      have hhere : (FileTree.directory entries).Proper := .directory hnames hname hentries
      rw [follow_directory] at h
      split at h
      · exact ih hhere habove h
      split at h
      · cases above with
        | nil => exact ih hhere habove h
        | cons parent higher =>
          obtain ⟨hparent, hhigher⟩ := List.forall_mem_cons.1 habove
          exact ih hparent hhigher h
      · split at h
        · cases h
        · rename_i child hchild
          obtain ⟨before, after, heq, -⟩ := List.lookup_eq_some_iff.1 hchild
          have hmem : (part, child) ∈ entries := by simp [heq]
          exact ih (hentries _ hmem) (List.forall_mem_cons.2 ⟨hhere, habove⟩) h

/-! ### Finding -/

/-- Where the components of a path are followed from. -/
def start (fs : FileSystem) (path : List Char) : Except PathFault (FileTree × List FileTree) :=
  if Path.isAbsolute path then .ok (fs.root, []) else follow fs.root [] fs.directory

/-- `FileSystem.find` follows the components of a path from where it starts. -/
theorem find_eq {fs : FileSystem} {path : List Char} (hne : path ≠ []) :
    fs.find path = (fs.start path).bind fun place =>
      (follow place.1 place.2 (Path.components path)).map (·.1) := by
  have hempty : path.isEmpty = false := by simpa using hne
  rw [find, hempty, start]
  simp only [Bool.false_eq_true, if_false]
  cases Path.isAbsolute path with
  | true => rfl
  | false => cases follow fs.root [] fs.directory <;> rfl

/-- The empty path is not found. -/
theorem ne_nil_of_find {fs : FileSystem} {path : List Char} {t : FileTree}
    (h : fs.find path = .ok t) : path ≠ [] := by
  rintro rfl
  cases h

/-- A path starts in a proper tree, below proper trees. -/
theorem proper_of_start {fs : FileSystem} (hfs : fs.root.Proper) {path : List Char}
    {place : FileTree × List FileTree} (h : fs.start path = .ok place) :
    place.1.Proper ∧ ∀ t ∈ place.2, t.Proper := by
  rw [start] at h
  split at h
  · obtain rfl := Except.ok.inj h
    exact ⟨hfs, by simp⟩
  · exact proper_of_follow hfs (by simp) h

/-- What a path leads to, step by step: a place to start from, and the place at the end. -/
theorem exists_of_find {fs : FileSystem} {path : List Char} {t : FileTree}
    (h : fs.find path = .ok t) : ∃ place above, fs.start path = .ok place ∧
      follow place.1 place.2 (Path.components path) = .ok (t, above) := by
  rw [find_eq (ne_nil_of_find h)] at h
  cases hstart : fs.start path with
  | error fault =>
    rw [hstart] at h
    cases h
  | ok place =>
    rw [hstart] at h
    cases hfollow : follow place.1 place.2 (Path.components path) with
    | error fault =>
      simp only [Except.bind, hfollow] at h
      cases h
    | ok found =>
      simp only [Except.bind, hfollow] at h
      obtain rfl := Except.ok.inj h
      exact ⟨place, found.2, rfl, hfollow⟩

/-- `FileSystem.find` finds proper trees in a proper tree. -/
theorem proper_of_find {fs : FileSystem} (hfs : fs.root.Proper) {path : List Char} {t : FileTree}
    (h : fs.find path = .ok t) : t.Proper := by
  obtain ⟨place, above, hstart, hfollow⟩ := exists_of_find h
  obtain ⟨htree, habove⟩ := proper_of_start hfs hstart
  exact (proper_of_follow htree habove hfollow).1

/-- What a name leads to from a tree: nowhere from a file, and from a directory to the entry with the
name. -/
def descend : FileTree → List Char → Except PathFault FileTree
  | .file _, _ => .error .notDirectory
  | .directory entries, name => (entries.lookup name).elim (.error .notFound) .ok

/-- To `follow` a name is to `descend` to its entry. -/
theorem map_follow_name (tree : FileTree) (above : List FileTree) {name : List Char}
    (hname : Path.IsName name) : (follow tree above [name]).map (·.1) = descend tree name := by
  cases tree with
  | file => rfl
  | directory entries =>
    rw [descend]
    cases hchild : entries.lookup name with
    | some t => rw [follow_name hname hchild]; rfl
    | none =>
      have hstay : (name.isEmpty || name == ['.']) = false := by
        simp [hname.ne_nil, hname.here]
      have hup : (name == ['.', '.']) = false := by
        simp [hname.up]
      rw [follow_directory, hstay, hup, hchild]
      rfl

/-- `FileSystem.find` goes on with a name from what the path leads to. -/
theorem find_join_eq {fs : FileSystem} {path name : List Char} (hne : path ≠ [])
    (hname : Path.IsName name) :
    fs.find (Path.join path name) = (fs.find path).bind fun tree => descend tree name := by
  have hstart : fs.start (Path.join path name) = fs.start path := by
    rw [start, start, Path.isAbsolute_join hname.isAbsolute hne]
  rw [find_eq (Path.join_ne_nil hname.isAbsolute hne), find_eq hne, hstart]
  cases fs.start path with
  | error fault => rfl
  | ok place =>
    obtain ⟨tree, above⟩ := place
    -- The components of the longer path are those of the path, then the name.
    have hcomponents : follow tree above (Path.components (Path.join path name)) =
        (follow tree above (Path.components path)).bind fun found =>
          follow found.1 found.2 [name] := by
      rcases Path.join_cases path hname.isAbsolute with ⟨hnil, -⟩ | ⟨head, rfl, hjoin⟩ | hjoin
      · exact absurd hnil hne
      · rw [hjoin, Path.components_append, Path.components_append, follow_append, follow_append,
          Path.components_of_not_mem hname.slash]
        cases follow tree above (Path.components head) with
        | error fault => rfl
        | ok found =>
          obtain ⟨tree', above'⟩ := found
          cases tree' with
          | file => rfl
          | directory entries => rfl
      · rw [hjoin, Path.components_append, follow_append, Path.components_of_not_mem hname.slash]
    change (follow tree above _).map (·.1) =
      ((follow tree above (Path.components path)).map (·.1)).bind _
    rw [hcomponents]
    cases follow tree above (Path.components path) with
    | error fault => rfl
    | ok found => exact map_follow_name found.1 found.2 hname

/-- A name behind the path of a directory leads to the entry with the name. -/
theorem find_join {fs : FileSystem} {path name : List Char} {child : FileTree}
    {entries : List (List Char × FileTree)} (hpath : fs.find path = .ok (.directory entries))
    (hname : Path.IsName name) (hchild : entries.lookup name = some child) :
    fs.find (Path.join path name) = .ok child := by
  rw [find_join_eq (ne_nil_of_find hpath) hname, hpath]
  simp only [Except.bind, descend, hchild]
  rfl

end FileSystem

end TypeNotes
