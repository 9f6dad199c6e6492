import TypeNotes.Files.Path
import TypeNotes.Proofs.Files.Tree

/-!
# Normal forms of paths

The normal form of an absolute path is one slash or exactly two, and behind them names of entries
with slashes between them (`IsNormal`). No component is empty or stands for a place relative to
another one, and nothing but the root ends in a slash. The paths of this form are the absolute ones
that are their own normal form (`isNormal_iff`), so a path that was made absolute once stays as it
is, from whatever directory it is looked at (`absolute_of_isNormal`).

Normalisation goes through the components of a path with a stack. Below the root only names are ever
on the stack (`isName_of_mem_foldl`), and names are only put on it (`foldl_pushComponent`).
-/

namespace TypeNotes.Path

/-- One slash or two, and names with slashes between them. -/
def IsNormal (path : List Char) : Prop :=
  ∃ slashes names, path = slashes ++ ofComponents names ∧
    (slashes = ['/'] ∨ slashes = ['/', '/']) ∧ ∀ name ∈ names, IsName name

/-! ### Components -/

/-- Components have no slash. -/
theorem slash_of_mem_components {path part : List Char} (h : part ∈ components path) :
    '/' ∉ part := by
  induction path generalizing part with
  | nil =>
    obtain rfl := List.mem_singleton.1 h
    exact List.not_mem_nil
  | cons c path ih =>
    rw [components] at h
    split at h
    · rcases List.mem_cons.1 h with rfl | h
      · exact List.not_mem_nil
      · exact ih h
    · rename_i hc
      have hslash : '/' ≠ c := by
        rintro rfl
        exact hc rfl
      obtain ⟨first, more, hparts⟩ := List.exists_cons_of_ne_nil (components_ne_nil path)
      rw [hparts] at h ih
      rcases List.mem_cons.1 h with rfl | h
      · exact List.not_mem_cons_of_ne_of_not_mem hslash (ih List.mem_cons_self)
      · exact ih (List.mem_cons_of_mem _ h)

/-- `components` takes apart what `ofComponents` joins. -/
theorem components_ofComponents {parts : List (List Char)} (hne : parts ≠ [])
    (h : ∀ part ∈ parts, '/' ∉ part) : components (ofComponents parts) = parts := by
  induction parts with
  | nil => exact absurd rfl hne
  | cons part parts ih =>
    obtain ⟨hpart, hparts⟩ := List.forall_mem_cons.1 h
    cases parts with
    | nil => exact components_of_not_mem hpart
    | cons next more =>
      have hne : next :: more ≠ [] := List.cons_ne_nil _ _
      rw [ofComponents, components_append, components_of_not_mem hpart, ih hne hparts]
      · rfl
      · exact hne

/-- What is spelled with names starts with a letter of the first one. -/
theorem isAbsolute_ofComponents {names : List (List Char)} (h : ∀ name ∈ names, IsName name) :
    isAbsolute (ofComponents names) = false := by
  cases names with
  | nil => rfl
  | cons name names =>
    have hname := h name List.mem_cons_self
    obtain ⟨c, rest, rfl⟩ := List.exists_cons_of_ne_nil hname.ne_nil
    have habsolute := hname.isAbsolute
    cases names with
    | nil => exact habsolute
    | cons => exact habsolute

/-- What is spelled with names ends with a letter of the last one. -/
theorem exists_getLast?_ofComponents {names : List (List Char)} (hne : names ≠ [])
    (h : ∀ name ∈ names, IsName name) : ∃ c, (ofComponents names).getLast? = some c ∧ c ≠ '/' := by
  induction names with
  | nil => exact absurd rfl hne
  | cons name names ih =>
    obtain ⟨hname, hnames⟩ := List.forall_mem_cons.1 h
    cases names with
    | nil =>
      refine ⟨_, List.getLast?_eq_some_getLast hname.ne_nil, ?_⟩
      intro hslash
      exact hname.slash (hslash ▸ List.getLast_mem hname.ne_nil)
    | cons next more =>
      obtain ⟨c, hlast, hc⟩ := ih (List.cons_ne_nil _ _) hnames
      refine ⟨c, ?_, hc⟩
      rw [ofComponents, List.getLast?_append, List.getLast?_cons, hlast]
      · rfl
      · exact List.cons_ne_nil _ _

/-! ### The stack -/

theorem pushComponent_name {name : List Char} (h : IsName name) (absolute : Bool)
    (kept : List (List Char)) : pushComponent absolute kept name = name :: kept := by
  simp [pushComponent, h.ne_nil, h.here, h.up]

theorem foldl_pushComponent {names : List (List Char)} (h : ∀ name ∈ names, IsName name)
    (absolute : Bool) (kept : List (List Char)) :
    names.foldl (pushComponent absolute) kept = names.reverse ++ kept := by
  induction names generalizing kept with
  | nil => rfl
  | cons name names ih =>
    obtain ⟨hname, hnames⟩ := List.forall_mem_cons.1 h
    rw [List.foldl_cons, pushComponent_name hname, ih hnames]
    simp

/-- With only names on the stack, `pushComponent` puts names on it, never two dots. -/
theorem isName_of_mem_pushComponent {kept : List (List Char)} {part : List Char}
    (hkept : ∀ name ∈ kept, IsName name) (hpart : '/' ∉ part) {name : List Char}
    (h : name ∈ pushComponent true kept part) : IsName name := by
  unfold pushComponent at h
  split at h
  · exact hkept name h
  rename_i hstay
  rw [Bool.or_eq_true, List.isEmpty_iff, beq_iff_eq, not_or] at hstay
  split at h
  · cases kept with
    | nil => cases h
    | cons last rest =>
      obtain ⟨hlast, hrest⟩ := List.forall_mem_cons.1 hkept
      have hup : (last == ['.', '.']) = false := beq_eq_false_iff_ne.2 hlast.up
      simp only [hup] at h
      exact hrest name h
  · rename_i hup
    rcases List.mem_cons.1 h with rfl | h
    · exact ⟨hstay.1, hpart, hstay.2, by simpa using hup⟩
    · exact hkept name h

theorem isName_of_mem_foldl {parts kept : List (List Char)} (hparts : ∀ part ∈ parts, '/' ∉ part)
    (hkept : ∀ name ∈ kept, IsName name) {name : List Char}
    (h : name ∈ parts.foldl (pushComponent true) kept) : IsName name := by
  induction parts generalizing kept with
  | nil => exact hkept name h
  | cons part parts ih =>
    obtain ⟨hpart, hparts⟩ := List.forall_mem_cons.1 hparts
    exact ih hparts (fun _ => isName_of_mem_pushComponent hkept hpart) h

/-! ### Normal forms -/

theorem rootSlashes_cons (path : List Char) :
    rootSlashes ('/' :: path) = ['/'] ∨ rootSlashes ('/' :: path) = ['/', '/'] := by
  unfold rootSlashes
  split
  · rename_i h
    cases h
  · exact .inr rfl
  · exact .inl rfl

theorem rootSlashes_append {slashes path : List Char}
    (hslashes : slashes = ['/'] ∨ slashes = ['/', '/']) (hpath : isAbsolute path = false) :
    rootSlashes (slashes ++ path) = slashes := by
  have hnone : path.takeWhile (· == '/') = [] := by
    cases path with
    | nil => rfl
    | cons c path => rw [List.takeWhile_cons_of_neg (by simpa [isAbsolute] using hpath)]
  rcases hslashes with rfl | rfl
  · simp [rootSlashes, hnone]
  · simp [rootSlashes, hnone]

/-- Slashes add components that are empty, which are not kept. -/
theorem foldl_components_slashes {slashes path : List Char}
    (hslashes : slashes = ['/'] ∨ slashes = ['/', '/']) :
    (components (slashes ++ path)).foldl (pushComponent true) [] =
      (components path).foldl (pushComponent true) [] := by
  rcases hslashes with rfl | rfl
  · rfl
  · rfl

/-- `normalize` gives a normal path. -/
theorem isNormal_normalize {path : List Char} (h : isAbsolute path) :
    IsNormal (normalize path) := by
  cases path with
  | nil => cases h
  | cons c path =>
    obtain rfl : c = '/' := by simpa [isAbsolute] using h
    have hslashes := rootSlashes_cons path
    refine ⟨rootSlashes ('/' :: path),
      ((components ('/' :: path)).foldl (pushComponent true) []).reverse, ?_, hslashes, ?_⟩
    · rw [normalize, h]
      rcases hslashes with hslashes | hslashes
      · rw [hslashes]
        rfl
      · rw [hslashes]
        rfl
    · intro name hname
      exact isName_of_mem_foldl (fun _ => slash_of_mem_components) (List.forall_mem_nil _)
        (List.mem_reverse.1 hname)

theorem IsNormal.isAbsolute {path : List Char} (h : IsNormal path) : isAbsolute path := by
  obtain ⟨slashes, names, rfl, rfl | rfl, -⟩ := h
  · rfl
  · rfl

/-- There are no more than two slashes at the start of a normal path (`IsNormal`). -/
theorem IsNormal.leading {path : List Char} (h : IsNormal path) : ¬ ['/', '/', '/'] <+: path := by
  obtain ⟨slashes, names, rfl, hslashes, hnames⟩ := h
  have hrelative := isAbsolute_ofComponents hnames
  rintro ⟨rest, hrest⟩
  rcases hslashes with rfl | rfl
  · simp only [List.cons_append, List.nil_append, List.cons.injEq, true_and] at hrest
    rw [← hrest] at hrelative
    cases hrelative
  · simp only [List.cons_append, List.nil_append, List.cons.injEq, true_and] at hrest
    rw [← hrest] at hrelative
    cases hrelative

/-- There is a slash at the end of the root only. -/
theorem IsNormal.trailing {path : List Char} (h : IsNormal path)
    (hlast : path.getLast? = some '/') : path = ['/'] ∨ path = ['/', '/'] := by
  obtain ⟨slashes, names, rfl, hslashes, hnames⟩ := h
  cases names with
  | nil => simpa [ofComponents] using hslashes
  | cons name names =>
    obtain ⟨c, hc, hslash⟩ := exists_getLast?_ofComponents (List.cons_ne_nil name names) hnames
    rw [List.getLast?_append, hc, Option.some_or] at hlast
    exact absurd (Option.some.inj hlast) hslash

/-- `normalize` keeps a normal path. -/
theorem normalize_of_isNormal {path : List Char} (h : IsNormal path) : normalize path = path := by
  have habsolute := h.isAbsolute
  obtain ⟨slashes, names, rfl, hslashes, hnames⟩ := h
  have hkept : (components (ofComponents names)).foldl (pushComponent true) [] = names.reverse := by
    cases names with
    | nil => rfl
    | cons name names =>
      have hslash : ∀ part ∈ name :: names, '/' ∉ part := fun part h => (hnames part h).slash
      rw [components_ofComponents (List.cons_ne_nil _ _) hslash, foldl_pushComponent hnames,
        List.append_nil]
  rw [normalize, habsolute, foldl_components_slashes hslashes, hkept, List.reverse_reverse,
    rootSlashes_append hslashes (isAbsolute_ofComponents hnames)]
  rcases hslashes with rfl | rfl
  · rfl
  · rfl

theorem isNormal_iff {path : List Char} :
    IsNormal path ↔ isAbsolute path ∧ normalize path = path := by
  constructor
  · intro h
    exact ⟨h.isAbsolute, normalize_of_isNormal h⟩
  · rintro ⟨habsolute, heq⟩
    exact heq ▸ isNormal_normalize habsolute

instance (path : List Char) : Decidable (IsNormal path) := decidable_of_iff _ isNormal_iff.symm

/-! ### Paths made absolute -/

/-- `absolute` gives a normal path. -/
theorem isNormal_absolute {directory : List Char} (h : isAbsolute directory) (path : List Char) :
    IsNormal (absolute directory path) := by
  refine isNormal_normalize ?_
  cases hpath : isAbsolute path with
  | true => rwa [join, if_pos hpath]
  | false =>
    have hne : directory ≠ [] := by
      rintro rfl
      cases h
    rwa [isAbsolute_join hpath hne]

/-- `absolute` keeps a normal path, whatever the directory. -/
theorem absolute_of_isNormal (directory : List Char) {path : List Char} (h : IsNormal path) :
    absolute directory path = path := by
  rw [absolute, join, if_pos h.isAbsolute, normalize_of_isNormal h]

end TypeNotes.Path
