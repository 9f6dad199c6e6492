import Mathlib.Data.List.TakeWhile
import TypeNotes.Files.Collect
import TypeNotes.Proofs.Files.Tree

/-!
# What globs keep of their patterns

A pattern for names that ends like the name of a Ruby file spells only names that end so as well
(`isRubyName_of_isMatch`): its ending has no wildcard in it. The component for any chain of
directories ends otherwise. So a path that a glob stands for has at least as many components that
end like Ruby files as the glob has (`countRuby_le_of_mem_expand`).
-/

namespace TypeNotes

/-! ### Endings -/

/-- Whether a character stands for itself wherever it is in a pattern. -/
def Glob.isPlain (c : Char) : Bool := !(['*', '?', '[', ']', '!'].contains c)

/-- `isRubyName` holds of what ends with one of the endings, all of plain characters. -/
theorem isRubyName_iff {name : List Char} : isRubyName name = true ↔
    ∃ ending, ending.all Glob.isPlain = true ∧ isRubyName ending = true ∧ ending <:+ name := by
  simp only [isRubyName, List.any_eq_true, Text.endsWith, List.isSuffixOf_iff_suffix]
  constructor
  · rintro ⟨ending, hending, hname⟩
    have hplain : ∀ ending ∈ [".rb", ".rbi", ".rake", ".gemspec", ".ru"],
        ending.toList.all Glob.isPlain = true := by decide
    exact ⟨_, hplain ending hending, ⟨ending, hending, List.suffix_rfl⟩, hname⟩
  · rintro ⟨ending, -, ⟨ending', hmem, hsuffix⟩, hname⟩
    exact ⟨ending', hmem, hsuffix.trans hname⟩

/-- What ends with a name of a Ruby file is one. -/
theorem isRubyName_of_suffix {name path : List Char} (h : isRubyName name = true)
    (hsuffix : name <:+ path) : isRubyName path = true := by
  obtain ⟨ending, hplain, hruby, hname⟩ := isRubyName_iff.1 h
  exact isRubyName_iff.2 ⟨ending, hplain, hruby, hname.trans hsuffix⟩

namespace Glob

/-! ### The end of a pattern -/

/-- At most one character is looked for at the start of a set, and at most those that are there. -/
theorem length_filter_take_le (p : Char → Bool) (s : List Char) :
    ((s.take 1).filter p).length ≤ s.length := by
  refine Nat.le_trans (List.length_filter_le p _) ?_
  rw [List.length_take]
  exact Nat.min_le_right 1 _

section Plain

variable {e : List Char} (he : e.all isPlain = true)

include he

/-- Plain characters are not special ones. -/
theorem ne_of_plain {c d : Char} (hd : isPlain d = false) (hc : c ∈ e) : c ≠ d := by
  rintro rfl
  have htrue := List.all_eq_true.1 he c hc
  rw [hd] at htrue
  cases htrue

/-- A character that is looked for at the start of a set is not found in the end of the pattern. -/
theorem filter_take_append {d : Char} (hd : isPlain d = false) (s : List Char) :
    ((s ++ e).take 1).filter (· == d) = (s.take 1).filter (· == d) := by
  cases s with
  | cons c s => rfl
  | nil =>
    rw [List.nil_append, List.take_nil, List.filter_nil, List.filter_eq_nil_iff]
    intro c hc
    have hne := ne_of_plain he hd (List.mem_of_mem_take hc)
    simpa using hne

/-- Plain characters behind a pattern do not close the sets of `splitSet?`. -/
theorem splitSet?_append (s : List Char) :
    splitSet? (s ++ e) = (splitSet? s).map fun parts => (parts.1, parts.2 ++ e) := by
  have hmark := length_filter_take_le (· == '!') s
  unfold splitSet?
  simp only [filter_take_append he (d := '!') (by decide), List.drop_append_of_le_length hmark,
    filter_take_append he (d := ']') (by decide)]
  generalize (s.take 1).filter (· == '!') = mark at hmark
  have hfirst := length_filter_take_le (· == ']') (s.drop mark.length)
  rw [List.length_drop] at hfirst
  generalize ((s.drop mark.length).take 1).filter (· == ']') = first at hfirst
  have hlead : (mark ++ first).length ≤ s.length := by
    rw [List.length_append]
    omega
  rw [List.drop_append_of_le_length hlead]
  generalize s.drop (mark ++ first).length = tail
  -- No bracket closes in the end of the pattern.
  have hall : ∀ c ∈ e, (c != ']') = true := by
    intro c hc
    exact bne_iff_ne.2 (ne_of_plain he (by decide) hc)
  cases hclose : tail.dropWhile (· != ']') with
  | nil =>
    have hnone : (tail ++ e).dropWhile (· != ']') = [] := by
      rw [List.dropWhile_append, hclose, List.isEmpty_nil, if_pos rfl, List.dropWhile_eq_nil_iff]
      exact hall
    rw [hnone]
    rfl
  | cons c rest =>
    have hsome : (tail ++ e).dropWhile (· != ']') = c :: rest ++ e := by
      rw [List.dropWhile_append, hclose]
      rfl
    have hinside : (tail ++ e).takeWhile (· != ']') = tail.takeWhile (· != ']') := by
      rw [List.takeWhile_append, if_neg]
      intro hlength
      have heq := (List.takeWhile_sublist (· != ']')).eq_of_length hlength
      have hparts := List.takeWhile_append_dropWhile (p := (· != ']')) (l := tail)
      rw [heq, hclose] at hparts
      exact absurd (List.append_right_eq_self.1 hparts) (List.cons_ne_nil c rest)
    rw [hsome, hinside]
    rfl

/-- Plain characters stand for themselves each. -/
theorem items_plain : items e = e.map .exactly := by
  induction e with
  | nil => rw [items, List.map_nil]
  | cons c e ih =>
    rw [List.all_cons, Bool.and_eq_true] at he
    rw [items, ih he.2, List.map_cons]
    · rintro rfl
      exact absurd he.1 (by decide)
    · rintro rfl
      exact absurd he.1 (by decide)
    · rintro rfl
      exact absurd he.1 (by decide)

/-- A plain end of a pattern has no part in sets (`items`). -/
theorem items_append (a : List Char) : items (a ++ e) = items a ++ e.map .exactly := by
  fun_induction items a with
  | case1 => exact items_plain he
  | case2 rest ih => rw [List.cons_append, items, ih, List.cons_append]
  | case3 rest ih => rw [List.cons_append, items, ih, List.cons_append]
  | case4 rest inside more hset ih =>
    have hset' : splitSet? (rest ++ e) = some (inside, more ++ e) := by
      rw [splitSet?_append he, hset]
      rfl
    rw [List.cons_append, items]
    split
    · rename_i inside' more' hsome
      rw [hset'] at hsome
      obtain ⟨rfl, rfl⟩ := Prod.mk.inj (Option.some.inj hsome)
      rw [ih, List.cons_append]
    · rename_i hnone
      rw [hset'] at hnone
      cases hnone
  | case5 rest hset ih =>
    have hset' : splitSet? (rest ++ e) = none := by
      rw [splitSet?_append he, hset]
      rfl
    rw [List.cons_append, items]
    split
    · rename_i hsome
      rw [hset'] at hsome
      cases hsome
    · rw [ih, List.cons_append]
  | case6 c rest h₁ h₂ h₃ ih =>
    rw [List.cons_append, items, ih, List.cons_append]
    all_goals assumption

end Plain

/-- What is spelled by a pattern (`isMatch`) ends as the pattern does. -/
theorem suffix_of_isMatch {e s : List Char} {items : List Item}
    (h : isMatch (items ++ e.map .exactly) s = true) : e <:+ s := by
  induction items generalizing s with
  | nil =>
    rw [List.nil_append] at h
    have heq : s = e := by
      induction e generalizing s with
      | nil =>
        cases s with
        | nil => rfl
        | cons c s => simp [isMatch] at h
      | cons d e ih =>
        cases s with
        | nil => simp [isMatch] at h
        | cons c s =>
          rw [List.map_cons, isMatch, Bool.and_eq_true, beq_iff_eq] at h
          rw [h.1, ih h.2]
    exact heq ▸ List.suffix_rfl
  | cons item items ih =>
    rw [List.cons_append] at h
    cases item with
    | anything =>
      induction s with
      | nil =>
        rw [isMatch] at h
        exact ih h
      | cons c s ih' =>
        rw [isMatch, Bool.or_eq_true] at h
        rcases h with h | h
        · exact ih h
        · exact (ih' h).trans (List.suffix_cons c s)
    | one =>
      cases s with
      | nil => simp [isMatch] at h
      | cons c s =>
        rw [isMatch] at h
        exact (ih h).trans (List.suffix_cons c s)
    | exactly d =>
      cases s with
      | nil => simp [isMatch] at h
      | cons c s =>
        rw [isMatch, Bool.and_eq_true] at h
        exact (ih h.2).trans (List.suffix_cons c s)
    | among set =>
      cases s with
      | nil => simp [isMatch] at h
      | cons c s =>
        rw [isMatch, Bool.and_eq_true] at h
        exact (ih h.2).trans (List.suffix_cons c s)

/-- What matches a pattern that ends like a Ruby file ends like one. -/
theorem isRubyName_of_isMatch {pattern name : List Char} (hpattern : isRubyName pattern = true)
    (h : isMatch (items pattern) name = true) : isRubyName name = true := by
  obtain ⟨ending, hplain, hruby, before, rfl⟩ := isRubyName_iff.1 hpattern
  rw [items_append hplain] at h
  exact isRubyName_iff.2 ⟨ending, hplain, hruby, suffix_of_isMatch h⟩

end Glob

/-! ### Components that end like Ruby files -/

namespace Path

/-- How many components of a path end like Ruby files. -/
def countRuby (path : List Char) : Nat := (components path).countP isRubyName

/-- `countRuby` counts the components on both sides of a slash. -/
theorem countRuby_append (s t : List Char) :
    countRuby (s ++ '/' :: t) = countRuby s + countRuby t := by
  rw [countRuby, components_append, List.countP_append]
  rfl

/-- The empty path has no component that ends like a Ruby file. -/
theorem countRuby_nil : countRuby [] = 0 := rfl

/-- A path without a slash is its one component. -/
theorem countRuby_of_not_mem {s : List Char} (h : '/' ∉ s) :
    countRuby s = if isRubyName s then 1 else 0 := by
  rw [countRuby, components_of_not_mem h, List.countP_singleton]

/-- `countRuby` counts the components of both joined paths. -/
theorem countRuby_join (directory : List Char) {path : List Char} (h : isAbsolute path = false) :
    countRuby (join directory path) = countRuby directory + countRuby path := by
  rcases join_cases directory h with ⟨rfl, hjoin⟩ | ⟨head, rfl, hjoin⟩ | hjoin
  · rw [hjoin, countRuby_nil, Nat.zero_add]
  · rw [hjoin, countRuby_append, countRuby_append, countRuby_nil, Nat.add_zero]
  · rw [hjoin, countRuby_append]

/-- For `countRuby`, slashes at the end make no difference. -/
theorem countRuby_dropWhile (s : List Char) :
    countRuby (s.dropWhile (· == '/')).reverse = countRuby s.reverse := by
  induction s with
  | nil => rfl
  | cons c s ih =>
    rw [List.dropWhile_cons]
    split
    · rename_i hc
      rw [ih, List.reverse_cons, beq_iff_eq.1 hc, countRuby_append, countRuby_nil, Nat.add_zero]
    · rfl

/-- A base name has no slash. -/
theorem not_mem_baseName (path : List Char) : '/' ∉ baseName path := by
  rw [baseName, List.mem_reverse]
  intro hmem
  have hpass := List.mem_takeWhile_imp hmem
  simp at hpass

/-- `countRuby` counts the components of the directory and the base name. -/
theorem countRuby_eq (path : List Char) :
    countRuby path = countRuby (directory path) + countRuby (baseName path) := by
  have hdirectory : countRuby (directory path) =
      countRuby (path.reverse.dropWhile (· != '/')).reverse := by
    rw [directory]
    split
    · rfl
    · rw [countRuby_dropWhile, List.reverse_reverse]
  have hparts := congrArg List.reverse
    (List.takeWhile_append_dropWhile (p := (· != '/')) (l := path.reverse))
  rw [List.reverse_append, List.reverse_reverse] at hparts
  rw [hdirectory, baseName]
  conv_lhs => rw [← hparts]
  have hhead := List.head?_dropWhile_not (· != '/') path.reverse
  cases hdrop : path.reverse.dropWhile (· != '/') with
  | nil => rw [List.reverse_nil, List.nil_append, countRuby_nil, Nat.zero_add]
  | cons c rest =>
    rw [hdrop, List.head?_cons] at hhead
    have hc : c = '/' := by simpa using hhead
    rw [hc, List.reverse_cons, List.append_assoc, List.singleton_append, countRuby_append,
      countRuby_append, countRuby_nil, Nat.add_zero]

end Path

namespace Glob

open TypeNotes.Path

/-! ### Names that a component stands for -/

/-- A path below a name is relative. -/
theorem isAbsolute_join_name {name path : List Char} (hname : IsName name)
    (h : isAbsolute path = false) : isAbsolute (join name path) = false := by
  rw [isAbsolute_join h hname.ne_nil, hname.isAbsolute]

/-- The paths below a directory are relative to it. -/
theorem isAbsolute_of_mem_below (onlyDirectories : Bool) {t : FileTree} (ht : t.Proper) :
    ∀ path ∈ below onlyDirectories t, isAbsolute path = false := by
  induction ht with
  | file => simp [below]
  | @directory entries hnames hname htree ih =>
    rw [below]
    clear hnames
    induction entries with
    | nil => simp [belowEntries]
    | cons entry rest ihrest =>
      obtain ⟨name, tree⟩ := entry
      obtain ⟨hname, hnames⟩ := List.forall_mem_cons.1 hname
      obtain ⟨htree, htrees⟩ := List.forall_mem_cons.1 htree
      obtain ⟨hbelow, hbelows⟩ := List.forall_mem_cons.1 ih
      intro path hpath
      rw [belowEntries, List.mem_append] at hpath
      rcases hpath with hpath | hpath
      · split at hpath
        · cases hpath
        · rcases List.mem_cons.1 hpath with rfl | hpath
          · exact hname.isAbsolute
          · obtain ⟨path', hpath', rfl⟩ := List.mem_map.1 hpath
            exact isAbsolute_join_name hname (hbelow path' hpath')
      · exact ihrest hnames htrees hbelows path hpath

variable {fs : FileSystem} (hfs : fs.root.Proper)

include hfs

/-- The entries that are listed at a path make a proper directory. -/
theorem proper_entriesAt (path : List Char) : (FileTree.directory (fs.entriesAt path)).Proper := by
  have hempty : (FileTree.directory []).Proper := .directory .nil (by simp) (by simp)
  rw [FileSystem.entriesAt]
  generalize (if path.isEmpty then ['.'] else path) = path
  cases hfind : fs.find path with
  | error fault => exact hempty
  | ok t =>
    cases t with
    | file bytes => exact hempty
    | directory entries => exact FileSystem.proper_of_find hfs hfind

/-- `namesIn` a directory for a component are no absolute paths, and end as it does. -/
theorem spec_of_mem_namesIn {directory component name : List Char} {onlyDirectories : Bool}
    (hcomponent : '/' ∉ component) (h : name ∈ namesIn fs directory component onlyDirectories) :
    isAbsolute name = false ∧ countRuby component ≤ countRuby name := by
  have hentries := proper_entriesAt hfs directory
  rw [namesIn] at h
  split at h
  · rename_i hmark
    have hzero : countRuby component = 0 := by
      rw [beq_iff_eq.1 hmark]
      decide
    rw [hzero]
    refine ⟨?_, Nat.zero_le _⟩
    rcases List.mem_append.1 h with h | h
    · split at h
      · rw [List.mem_singleton] at h
        rw [h]
        rfl
      · cases h
    · have hbelow := isAbsolute_of_mem_below onlyDirectories hentries
      rw [below] at hbelow
      exact hbelow name h
  split at h
  · obtain ⟨⟨name', tree⟩, hentry, rfl⟩ := List.mem_map.1 h
    obtain ⟨hmem, hmatch⟩ := List.mem_filter.1 hentry
    simp only [Bool.and_eq_true] at hmatch
    cases hentries with
    | directory hnames hname htree =>
      have hname' : IsName name' := hname _ hmem
      refine ⟨hname'.isAbsolute, ?_⟩
      rw [countRuby_of_not_mem hcomponent, countRuby_of_not_mem hname'.slash]
      split
      · rename_i hruby
        rw [if_pos (isRubyName_of_isMatch hruby hmatch.2)]
      · exact Nat.zero_le _
  split at h
  · rename_i hempty
    rw [List.isEmpty_iff] at hempty
    split at h
    · rw [List.mem_singleton] at h
      rw [h, hempty]
      exact ⟨rfl, Nat.le_refl _⟩
    · cases h
  · split at h
    · rw [List.mem_singleton] at h
      rw [h]
      exact ⟨isAbsolute_of_not_mem hcomponent, Nat.le_refl _⟩
    · cases h

omit hfs in
/-- `expandWith` expands a glob in the directories that what stands before its last component stands
for. -/
theorem expandWith_succ (fuel : Nat) (onlyDirectories : Bool) (pattern : List Char) :
    expandWith fs (fuel + 1) onlyDirectories pattern =
      if !hasMagic pattern then
        if if (baseName pattern).isEmpty then fs.isDirectory (directory pattern)
          else fs.contains pattern then [pattern] else []
      else if (directory pattern).isEmpty then namesIn fs [] (baseName pattern) onlyDirectories
      else (if hasMagic (directory pattern) then expandWith fs fuel true (directory pattern)
        else [directory pattern]).flatMap fun parent =>
          (namesIn fs parent (baseName pattern) onlyDirectories).map (join parent) := rfl

/-- What a pattern expands to has no fewer components that end like Ruby files than the pattern. -/
theorem countRuby_le_of_mem_expandWith {fuel : Nat} {onlyDirectories : Bool}
    {pattern path : List Char} (h : path ∈ expandWith fs fuel onlyDirectories pattern) :
    countRuby pattern ≤ countRuby path := by
  induction fuel generalizing onlyDirectories pattern path with
  | zero => cases h
  | succ fuel ih =>
    have hbase := not_mem_baseName pattern
    rw [expandWith_succ] at h
    split at h
    · rw [List.mem_ite_nil_right, List.mem_singleton] at h
      rw [h.2]
    split at h
    · rename_i hempty
      rw [countRuby_eq pattern, List.isEmpty_iff.1 hempty, countRuby_nil, Nat.zero_add]
      exact (spec_of_mem_namesIn hfs hbase h).2
    · obtain ⟨parent, hparent, h⟩ := List.mem_flatMap.1 h
      obtain ⟨name, hname, rfl⟩ := List.mem_map.1 h
      obtain ⟨habsolute, hle⟩ := spec_of_mem_namesIn hfs hbase hname
      have hle' : countRuby (directory pattern) ≤ countRuby parent := by
        split at hparent
        · exact ih hparent
        · rw [List.mem_singleton] at hparent
          rw [hparent]
      rw [countRuby_eq pattern, countRuby_join parent habsolute]
      exact Nat.add_le_add hle' hle

/-- A glob has no more components that end like Ruby files than the paths that it stands for. -/
theorem countRuby_le_of_mem_expand {pattern path : List Char} (h : path ∈ expand fs pattern) :
    countRuby pattern ≤ countRuby path := by
  rw [expand, List.mem_mergeSort] at h
  have hfound : path ∈ expandWith fs (pattern.length + 1) false pattern := by
    split at h
    · exact List.mem_of_mem_drop h
    · exact h
  exact countRuby_le_of_mem_expandWith hfs hfound

end Glob

end TypeNotes
