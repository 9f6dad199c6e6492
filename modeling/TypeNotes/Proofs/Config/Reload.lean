import TypeNotes.Proofs.Config.Document
import TypeNotes.Proofs.Files.Path

/-!
# Loading twice

What loading leaves of a document is a document again. It loads as the same configuration, from
whatever directory, and nothing of it changes (`load_idempotent`): the paths of its files are in
normal form, and everything else was left as it is the first time. The same holds for the value that
a configuration is written as.
-/

namespace TypeNotes.Config

/-- `resolve` keeps files in normal form in any directory. -/
theorem map_resolve (base : String) {files : List String}
    (h : ∀ file ∈ files, Path.IsNormal file.toList) : files.map (resolve base) = files := by
  have hfile : ∀ file ∈ files, resolve base file = id file := by
    intro file hfile
    rw [resolve, Path.absolute_of_isNormal _ (h file hfile), String.ofList_toList, id_eq]
  rw [List.map_congr_left hfile, List.map_id]

theorem ListsFiles.isNormal {base : String} (hbase : Path.isAbsolute base.toList) {value : Value}
    {files : List String} (h : ListsFiles base value files) {file : String} (hfile : file ∈ files) :
    Path.IsNormal file.toList := by
  rcases h with ⟨-, rfl⟩ | ⟨names, -, rfl⟩
  · cases hfile
  · obtain ⟨name, -, rfl⟩ := List.mem_map.1 hfile
    rw [resolve, String.toList_ofList]
    exact Path.isNormal_absolute hbase name.toList

theorem describes_valueOfEntry (e : RuleEntry) : Describes (valueOfEntry e) e := by
  obtain ⟨rule, severity, enabled⟩ := e
  refine .map ?_ rfl ?_ ?_
  · intro f hf
    simp only [List.mem_append, List.mem_singleton, Option.mem_toList, Option.map_eq_some_iff] at hf
    rcases hf with (rfl | ⟨s, -, rfl⟩) | ⟨b, -, rfl⟩
    · rfl
    · rfl
    · rfl
  · cases severity <;> cases enabled <;> rfl
  · cases severity <;> cases enabled <;> rfl

/-- A configuration whose files are in normal form is what `Config.toValue` loads as, if it has
rules. -/
theorem load_toValue {config : Config} (hfiles : ∀ file ∈ config.files, Path.IsNormal file.toList)
    (hrules : config.rules ≠ []) (base : String) : load base config.toValue = .ok config := by
  have hlists : ListsFiles base (.list (config.files.map .str)) config.files :=
    .inr ⟨config.files, rfl, (map_resolve base hfiles).symm⟩
  refine load_eq_ok_iff.2 ⟨_, rfl, hlists, _, rfl, mt List.map_eq_nil_iff.1 hrules, ?_⟩
  rw [List.forall₂_map_left_iff, List.forall₂_same]
  exact fun e _ => describes_valueOfEntry e

/-- **Loading again changes nothing.** Let a document be loaded from an absolute directory. What is
left lists the files of the configuration, which are in normal form: names with slashes between them
behind one slash or two, never behind three, and with no slash at the end but that of the root.
Loaded again from any directory, what is left gives the same configuration and stays as it is; and
the value of the configuration gives the configuration as well. -/
theorem load_idempotent {base : String} (hbase : Path.isAbsolute base.toList)
    {value document : Value} (h : loadDocument base value = .ok document) :
    (∀ base', loadDocument base' document = .ok document) ∧
      ∃ config fields, load base value = .ok config ∧ document = .map fields ∧
        Value.field? fields "files" = some (.list (config.files.map .str)) ∧
        (∀ file ∈ config.files, Path.IsNormal file.toList ∧ ¬ ['/', '/', '/'] <+: file.toList ∧
          (file.toList.getLast? = some '/' → file.toList = ['/'] ∨ file.toList = ['/', '/'])) ∧
        ∀ base', load base' document = .ok config ∧ load base' config.toValue = .ok config := by
  obtain ⟨config, hload, rfl⟩ := loadDocument_eq_ok_iff.1 h
  obtain ⟨fields, rfl, hlists, values, -, hne, hentries⟩ := load_eq_ok_iff.1 hload
  have hnormal : ∀ file ∈ config.files, Path.IsNormal file.toList := fun _ => hlists.isNormal hbase
  have hagain : ∀ base', load base' (withFiles config.files (.map fields)) = .ok config := by
    intro base'
    rw [load_withFiles hload, map_resolve base' hnormal]
  have hrules : config.rules ≠ [] := by
    rintro hnil
    rw [hnil, List.forall₂_nil_right_iff] at hentries
    exact hne hentries
  refine ⟨fun base' => ?_, config, _, hload, rfl, ?_, fun file hfile => ?_, fun base' => ?_⟩
  · refine loadDocument_eq_ok_iff.2 ⟨config, hagain base', ?_⟩
    rw [withFiles, withFiles, Value.insert_insert]
  · rw [Value.field?_insert, if_pos rfl]
  · have hfile := hnormal file hfile
    exact ⟨hfile, hfile.leading, hfile.trailing⟩
  · exact ⟨hagain base', load_toValue hnormal hrules base'⟩

/-- Files below, beside and above the directory, and with two slashes at the start. -/
theorem load_idempotent_files :
    let document (files : List Value) : Value :=
      .map [(.str "rules", .list [.map [(.str "rule", .str "invalid-types")]]),
        (.str "files", .list files)]
    let kept := [Value.str "/base/lib", .str "/a.rb", .str "//srv/b.rb", .str "/c.rb"]
    loadDocument "/base" (document [.str "./lib/", .str "../../a.rb", .str "//srv//x/../b.rb",
        .str "///c.rb"]) = .ok (document kept) ∧
      loadDocument "/other" (document kept) = .ok (document kept) := by
  intro document kept
  have hload : loadDocument "/base" (document [.str "./lib/", .str "../../a.rb",
      .str "//srv//x/../b.rb", .str "///c.rb"]) = .ok (document kept) := by
    rfl
  exact ⟨hload, (load_idempotent (by decide) hload).1 "/other"⟩

end TypeNotes.Config
