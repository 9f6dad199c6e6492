import Mathlib.Data.Bool.AllAny
import Mathlib.Data.List.Chain
import TypeNotes.Proofs.Ruby.ParameterList

/-!
# Definitions as they are written

A method whose parameters have no default values is written on one line: the word `def`, its name,
its parameters in parentheses with commas between them, and an empty body (`definitionLine`). Names
are plain, that is, made of lower-case letters, digits and underscores (`PlainName`).

**Reading back.** The parameters read from such a line are those that were written
(`parseParameters_writeParameters`), and the line declares one method and no other
(`declarationsFrom_definitionLine`). A blank on the line stands behind a comma or a semicolon and
never behind a word, so that no second definition starts on it (`Spaced`).

**Masking** changes nothing on such a line, as none of its characters opens a literal or a comment
(`mask_definitionLine`), and blanks out a line that starts with a hash sign (`mask_hash`).
-/

namespace TypeNotes.Ruby

open Unicode

/-! ### Plain names -/

/-- Lower-case letters, digits and the underscore. -/
def plainCharacters : List Char := "abcdefghijklmnopqrstuvwxyz0123456789_".toList

/-- A name of plain characters that starts with no digit. -/
structure PlainName where
  text : List Char
  plain : text ⊆ plainCharacters
  start : text.head?.any (!·.isDigit) = true

/-- The `plainCharacters` are parts of words. -/
theorem isWord_of_plain {c : Char} (h : c ∈ plainCharacters) : isWord c = true := by
  have hall : ∀ c ∈ plainCharacters, isWord c = true := List.all_iff_forall_prop.1 (by decide)
  exact hall c h

/-- The `plainCharacters` other than digits start names. -/
theorem isNameStart_of_plain {c : Char} (h : c ∈ plainCharacters) (hdigit : c.isDigit = false) :
    isNameStart c = true := by
  have hall : ∀ c ∈ plainCharacters, c.isDigit = false → isNameStart c = true :=
    List.all_iff_forall_prop.1 (by decide)
  exact hall c h hdigit

namespace PlainName

variable (name : PlainName)

/-- A plain name has a first character, which is no digit. -/
theorem exists_cons :
    ∃ c more, name.text = c :: more ∧ c ∈ plainCharacters ∧ c.isDigit = false := by
  have hstart := name.start
  cases htext : name.text with
  | nil => simp [htext] at hstart
  | cons c more =>
    refine ⟨c, more, rfl, name.plain (htext ▸ List.mem_cons_self), ?_⟩
    simpa [htext] using hstart

theorem isWord {c : Char} (hc : c ∈ name.text) : isWord c = true :=
  isWord_of_plain (name.plain hc)

/-- A plain name is the name of a parameter. -/
def parameterName : ParameterName where
  text := name.text
  start := by
    obtain ⟨c, more, htext, hc, hdigit⟩ := name.exists_cons
    simp [htext, isNameStart_of_plain hc hdigit]
  part := by
    have hall : ∀ c ∈ plainCharacters, (c.isAlphanum || c == '_') = true :=
      List.all_iff_forall_prop.1 (by decide)
    exact fun c hc => hall c (name.plain hc)

/-- A name in front of what is no word, its first character taken apart. -/
theorem exists_cons_append {tail : List Char} (htail : ∀ c ∈ tail.head?, Unicode.isWord c = false) :
    ∃ c more, name.text = c :: more ∧ c ∈ plainCharacters ∧ c.isDigit = false ∧
      (more ++ tail).takeWhile Unicode.isWord = more ∧
      (more ++ tail).dropWhile Unicode.isWord = tail := by
  obtain ⟨c, more, htext, hc, hdigit⟩ := name.exists_cons
  have hmore : ∀ d ∈ more, Unicode.isWord d = true := fun d hd =>
    name.isWord (htext ▸ List.mem_cons_of_mem _ hd)
  obtain ⟨htake, hdrop⟩ := cut_run hmore htail
  exact ⟨c, more, htext, hc, hdigit, htake, hdrop⟩

end PlainName

/-! ### Parameters -/

/-- A parameter without a default value. Behind asterisks and ampersands the name may be left out,
and `**nil` is no parameter. -/
inductive PlainParameter
  | required (name : PlainName)
  | keyword (name : PlainName)
  | rest (name : Option PlainName)
  | keywordRest (name : Option PlainName) (ne : ∀ n ∈ name, n.text ≠ "nil".toList)
  | block (name : Option PlainName)
  | forward

namespace PlainParameter

/-- The parameter that is written. -/
def parameter : PlainParameter → Parameter
  | required name => .required name.text
  | keyword name => .keyword name.text
  | rest name => .rest (name.map PlainName.text)
  | keywordRest name _ => .keywordRest (name.map PlainName.text)
  | block name => .block (name.map PlainName.text)
  | forward => .forward

/-- How the parameter is written. -/
def written : PlainParameter → List Char
  | required name => name.text
  | keyword name => name.text ++ [':']
  | rest name => '*' :: name.elim [] PlainName.text
  | keywordRest name _ => '*' :: '*' :: name.elim [] PlainName.text
  | block name => '&' :: name.elim [] PlainName.text
  | forward => ['.', '.', '.']

/-- The characters that parameters are written with. -/
def characters : List Char := [':', '*', '&', '.'] ++ plainCharacters

/-- Parameters are written with `PlainParameter.characters`. -/
theorem written_subset (p : PlainParameter) : p.written ⊆ characters := by
  have hname (name : PlainName) : name.text ⊆ characters := fun c hc =>
    List.mem_append_right _ (name.plain hc)
  have hoptional (name : Option PlainName) : name.elim [] PlainName.text ⊆ characters := by
    cases name with
    | none => exact List.nil_subset _
    | some name => exact hname name
  cases p with
  | required name => exact hname name
  | keyword name => exact List.append_subset.2 ⟨hname name, by decide⟩
  | rest name => exact List.cons_subset.2 ⟨by decide, hoptional name⟩
  | keywordRest name _ =>
    exact List.cons_subset.2 ⟨by decide, List.cons_subset.2 ⟨by decide, hoptional name⟩⟩
  | block name => exact List.cons_subset.2 ⟨by decide, hoptional name⟩
  | forward => decide

/-- The form that the parameter is written in. -/
def form : PlainParameter → ParameterForm
  | required name => .required name.parameterName
  | keyword name => .keyword name.parameterName
  | rest name => .rest (name.map PlainName.parameterName)
  | keywordRest name ne => .keywordRest (name.map PlainName.parameterName) fun _ hn => by
    obtain ⟨n, hmem, rfl⟩ := Option.map_eq_some_iff.1 hn
    exact ne n hmem
  | block name => .block (name.map PlainName.parameterName)
  | forward => .forward

/-- A plain parameter is written as its form is. -/
theorem written_form (p : PlainParameter) : p.form.written = p.written := by
  cases p with
  | rest name | keywordRest name | block name => cases name <;> rfl
  | _ => rfl

/-- The form of a plain parameter stands for this parameter alone. -/
theorem parameters_form (p : PlainParameter) : p.form.parameters = [p.parameter] := by
  cases p with
  | rest name | keywordRest name | block name => cases name <;> rfl
  | _ => rfl

/-- The form of a parameter behind another one. -/
def nextForm (p : PlainParameter) : ParameterForm := .padded ⟨[' '], by simp⟩ p.form ⟨[], by simp⟩

end PlainParameter

/-! ### Reading all parameters -/

/-- Parameters with commas between them. -/
def writeParameters : List PlainParameter → List Char
  | [] => []
  | [p] => p.written
  | p :: more => p.written ++ ',' :: ' ' :: writeParameters more

/-- `writeParameters` puts a comma and a blank behind the first parameter. -/
theorem writeParameters_cons (p : PlainParameter) {more : List PlainParameter} (h : more ≠ []) :
    writeParameters (p :: more) = p.written ++ ',' :: ' ' :: writeParameters more := by
  cases more with
  | nil => exact absurd rfl h
  | cons q more => rfl

/-- `writeParameters` as a list of forms, with a blank behind each comma. -/
theorem writeParameters_eq_join (p : PlainParameter) (more : List PlainParameter) :
    writeParameters (p :: more) =
      ParameterForm.join (p.form :: more.map PlainParameter.nextForm) := by
  induction more generalizing p with
  | nil => exact p.written_form.symm.trans (List.intercalate_singleton ..).symm
  | cons q more ih =>
    -- A blank in front of the first parameter is a blank in front of the list.
    have hwritten : q.nextForm.written = ' ' :: q.form.written :=
      congrArg (' ' :: ·) (List.append_nil _)
    have hblank : ParameterForm.join (q.nextForm :: more.map PlainParameter.nextForm) =
        ' ' :: ParameterForm.join (q.form :: more.map PlainParameter.nextForm) := by
      rw [ParameterForm.join, ParameterForm.join, List.map_cons, List.map_cons, hwritten]
      cases more with
      | nil => rfl
      | cons r more => rfl
    rw [writeParameters_cons p (List.cons_ne_nil q more), ih, ← hblank, ← p.written_form,
      List.map_cons, ParameterForm.join_cons_cons]

/-- `parseParameters` reads what `writeParameters` wrote. -/
theorem parseParameters_writeParameters (ps : List PlainParameter) :
    parseParameters (writeParameters ps) = ps.map PlainParameter.parameter := by
  cases ps with
  | nil =>
    rw [parseParameters_eq]
    rfl
  | cons p more =>
    rw [writeParameters_eq_join, ParameterForm.parseParameters_join fun form _ => form.reads,
      List.flatMap_cons, p.parameters_form, List.flatMap_map, List.map_cons, List.singleton_append,
      List.map_eq_flatMap]
    exact congrArg (_ :: ·) (List.flatMap_congr fun q _ => q.parameters_form)

/-! ### The line of a definition -/

/-- The line that defines a method with these parameters. -/
def definitionLine (name : PlainName) (ps : List PlainParameter) : List Char :=
  "def ".toList ++ name.text ++ '(' :: (writeParameters ps ++ "); end".toList)

theorem definitionLine_eq (name : PlainName) (ps : List PlainParameter) : definitionLine name ps =
    "def ".toList ++ name.text ++ '(' :: (writeParameters ps ++ "); end".toList) := rfl

/-- No blank stands right behind a word that ends like `def`. -/
def Spaced (s : List Char) : Prop := s.IsChain fun c d => isInlineBlank d = true → c ≠ 'f'

/-- A word without blanks may stand in front of a spaced text that starts with no blank. -/
theorem spaced_append {word : List Char} (hword : ∀ c ∈ word, isInlineBlank c = false) {d : Char}
    (hd : isInlineBlank d = false) {s : List Char} (hs : Spaced (d :: s)) :
    Spaced (word ++ d :: s) := by
  induction word with
  | nil => exact hs
  | cons c word ih =>
    rw [List.cons_append, Spaced, List.isChain_cons]
    refine ⟨fun e he hblank => ?_, ih fun e he => hword e (List.mem_cons_of_mem _ he)⟩
    have hfalse : isInlineBlank e = false := by
      cases word with
      | nil =>
        obtain rfl : d = e := by simpa using he
        exact hd
      | cons f word =>
        obtain rfl : f = e := by simpa using he
        exact hword f (by simp)
    rw [hfalse] at hblank
    cases hblank

/-- In `writeParameters` blanks stand behind commas (`Spaced`). -/
theorem spaced_writeParameters (ps : List PlainParameter) {tail : List Char}
    (htail : Spaced (')' :: tail)) : Spaced (writeParameters ps ++ ')' :: tail) := by
  induction ps with
  | nil => exact htail
  | cons p ps ih =>
    have hwritten : ∀ c ∈ p.written, isInlineBlank c = false := by
      have hall : ∀ c ∈ PlainParameter.characters, isInlineBlank c = false :=
        List.all_iff_forall_prop.1 (by decide)
      exact fun c hc => hall c (p.written_subset hc)
    by_cases hps : ps = []
    · subst hps
      exact spaced_append hwritten (by decide) htail
    · rw [writeParameters_cons p hps, List.append_assoc, List.cons_append, List.cons_append]
      refine spaced_append hwritten (by decide) ?_
      have hblank : Spaced (' ' :: (writeParameters ps ++ ')' :: tail)) :=
        List.isChain_cons.2 ⟨fun _ _ _ => by decide, ih⟩
      exact List.isChain_cons.2 ⟨fun _ _ _ => by decide, hblank⟩

/-- Empty lines below a definition declare nothing. -/
theorem spaced_end (below : Nat) : Spaced ("); end".toList ++ List.replicate below '\n') := by
  have hbelow : Spaced (List.replicate below '\n') := by
    induction below with
    | zero => exact .nil
    | succ below ih => exact List.isChain_cons.2 ⟨fun _ _ _ => by decide, ih⟩
  have hlast : Spaced ('d' :: List.replicate below '\n') :=
    List.isChain_cons.2 ⟨fun _ _ _ => by decide, hbelow⟩
  simp only [Spaced] at hlast ⊢
  simp [hlast]

/-- Where no blank stands behind the word, there is no definition. -/
theorem headAfter?_of_spaced {s : List Char} (h : Spaced s) (previous : Option Char) :
    headAfter? previous s = none := by
  rw [headAfter?, DefinitionHead.ofText?_eq]
  split
  · rfl
  cases hafter : Text.after? ['d', 'e', 'f'] s with
  | none => rfl
  | some tail =>
    obtain rfl := after?_eq_some_iff.1 hafter
    have hgap : tail.takeWhile isInlineBlank = [] := by
      cases tail with
      | nil => rfl
      | cons b tail =>
        have hb : isInlineBlank b ≠ true := fun hb =>
          (List.isChain_cons_cons.1 (List.isChain_cons.1 (List.isChain_cons.1 h).2).2).1 hb rfl
        exact List.takeWhile_cons_of_neg hb
    simp only [Option.bind_some, hgap, List.isEmpty_nil, if_true]

/-- A spaced text declares nothing, as no word `def` with a blank is in it. -/
theorem declarationsFrom_of_spaced {s : List Char} (h : Spaced s) (line : Nat)
    (previous : Option Char) : declarationsFrom line previous s = [] := by
  induction s generalizing line previous with
  | nil => rw [declarationsFrom]
  | cons c s ih =>
    rw [declarationsFrom_of_none (headAfter?_of_spaced h previous)]
    exact ih (List.isChain_cons.1 h).2 _ _

/-- Lists of parameters are written with commas, blanks and the characters of parameters. -/
theorem writeParameters_subset (ps : List PlainParameter) :
    writeParameters ps ⊆ [',', ' '] ++ PlainParameter.characters := by
  induction ps with
  | nil => exact List.nil_subset _
  | cons p ps ih =>
    have hwritten : p.written ⊆ [',', ' '] ++ PlainParameter.characters :=
      List.subset_append_of_subset_right _ p.written_subset
    by_cases hps : ps = []
    · subst hps
      exact hwritten
    · rw [writeParameters_cons p hps]
      refine List.append_subset.2 ⟨hwritten, List.cons_subset.2 ⟨by decide, ?_⟩⟩
      exact List.cons_subset.2 ⟨by decide, ih⟩

/-- `splitAtClose` closes a list of parameters at the first parenthesis behind it. -/
theorem splitAtClose_writeParameters (ps : List PlainParameter) (s : List Char) :
    splitAtClose 0 (writeParameters ps ++ ')' :: s) = (writeParameters ps, ')' :: s) := by
  have hall : ∀ c ∈ [',', ' '] ++ PlainParameter.characters,
      c ∉ ['(', '[', '\x7b', ')', ']', '\x7d'] := List.all_iff_forall_prop.1 (by decide)
  have hsubset := writeParameters_subset ps
  generalize writeParameters ps = text at hsubset
  induction text with
  | nil => rfl
  | cons c text ih =>
    obtain ⟨hc, htext⟩ := List.cons_subset.1 hsubset
    have hne := hall c hc
    simp only [List.mem_cons, List.not_mem_nil, or_false, not_or] at hne
    simp [splitAtClose, hne, ih htext]

theorem isWord_open (s : List Char) : ∀ c ∈ ('(' :: s).head?, isWord c = false :=
  isWord_head? (by decide) s

/-- `splitReceiver?` finds no receiver in a plain name in front of a parenthesis. -/
theorem splitReceiver?_name (name : PlainName) (s : List Char) :
    splitReceiver? (name.text ++ '(' :: s) = none := by
  obtain ⟨c, more, htext, hc, hdigit, -, hdrop⟩ := name.exists_cons_append (isWord_open s)
  have hupper : c.isUpper = false := by
    have hall : ∀ c ∈ plainCharacters, c.isUpper = false := List.all_iff_forall_prop.1 (by decide)
    exact hall c hc
  rw [htext, List.cons_append, splitReceiver?, if_pos (isNameStart_of_plain hc hdigit)]
  simp [hupper, hdrop, isInlineBlank]

/-- `splitMethodName?` finds the name of a method in a plain name in front of a parenthesis. -/
theorem splitMethodName?_name (name : PlainName) (s : List Char) :
    splitMethodName? (name.text ++ '(' :: s) = some (name.text, '(' :: s) := by
  obtain ⟨c, more, htext, hc, hdigit, htake, hdrop⟩ := name.exists_cons_append (isWord_open s)
  rw [htext, List.cons_append, splitMethodName?, if_pos (isNameStart_of_plain hc hdigit)]
  simp [htake, hdrop]

/-- `headAfter?` reads `definitionLine` as the head of a method of that name. -/
theorem headAfter?_definitionLine (name : PlainName) (ps : List PlainParameter) (tail : List Char)
    {previous : Option Char} (h : previous.any gluesWord = false) :
    headAfter? previous (definitionLine name ps ++ tail) = some ⟨name.text,
      "def ".toList ++ name.text, '(' :: (writeParameters ps ++ ("); end".toList ++ tail))⟩ := by
  have hblank : ∀ s, (name.text ++ s).takeWhile isInlineBlank = [] ∧
      (name.text ++ s).dropWhile isInlineBlank = name.text ++ s := by
    obtain ⟨c, more, htext, hc, -⟩ := name.exists_cons
    have hall : ∀ c ∈ plainCharacters, isInlineBlank c = false :=
      List.all_iff_forall_prop.1 (by decide)
    simp [htext, hall c hc]
  have hline : definitionLine name ps ++ tail =
      "def ".toList ++ name.text ++ '(' :: (writeParameters ps ++ ("); end".toList ++ tail)) := by
    rw [definitionLine_eq, List.append_assoc ("def ".toList ++ name.text), List.cons_append,
      List.append_assoc (writeParameters ps)]
  rw [hline]
  generalize writeParameters ps ++ ("); end".toList ++ tail) = after
  have hafter : Text.after? ['d', 'e', 'f'] ("def ".toList ++ name.text ++ '(' :: after) =
      some (' ' :: (name.text ++ '(' :: after)) :=
    after?_eq_some_iff.2 (List.append_assoc ..)
  obtain ⟨htake, hdrop⟩ := hblank ('(' :: after)
  have hspace : isInlineBlank ' ' = true := by decide
  rw [headAfter?, h, if_neg Bool.false_ne_true, DefinitionHead.ofText?_eq, hafter, Option.bind_some,
    List.takeWhile_cons_of_pos hspace, List.dropWhile_cons_of_pos hspace, htake, hdrop]
  simp [splitReceiverAndName?, splitReceiver?_name, splitMethodName?_name]

/-- `definitionLine` declares its method, and empty lines below it declare nothing. -/
theorem declarationsFrom_definitionLine (name : PlainName) (ps : List PlainParameter)
    (below line : Nat) {previous : Option Char} (h : previous.any gluesWord = false) :
    ∃ d, declarationsFrom line previous (definitionLine name ps ++ List.replicate below '\n') =
        [d] ∧ d.line = line ∧ d.parameters = ps.map PlainParameter.parameter := by
  have hrest : Spaced ('(' :: (writeParameters ps ++
      ("); end".toList ++ List.replicate below '\n'))) :=
    List.isChain_cons.2 ⟨fun _ _ _ => by decide, spaced_writeParameters ps (spaced_end below)⟩
  rw [declarationsFrom_of_some (headAfter?_definitionLine name ps _ h),
    declarationsFrom_of_spaced hrest]
  refine ⟨_, rfl, rfl, ?_⟩
  have htext := parameterText_open (a := []) (by simp)
    (writeParameters ps ++ ("); end".toList ++ List.replicate below '\n'))
  have hclose : splitAtClose 0
      (writeParameters ps ++ ("); end".toList ++ List.replicate below '\n')) =
        (writeParameters ps, "); end".toList ++ List.replicate below '\n') :=
    splitAtClose_writeParameters ps ("; end".toList ++ List.replicate below '\n')
  rw [List.nil_append, hclose] at htext
  simp only [DefinitionHead.declaration, htext]
  exact parseParameters_writeParameters ps

/-! ### Masking -/

/-- The characters that lines of definitions are written with. -/
def definitionCharacters : List Char := [',', ' ', '(', ')', ';'] ++ PlainParameter.characters

theorem definitionLine_subset (name : PlainName) (ps : List PlainParameter) :
    definitionLine name ps ⊆ definitionCharacters := by
  have hname : name.text ⊆ definitionCharacters := fun c hc =>
    List.mem_append_right _ (List.mem_append_right _ (name.plain hc))
  have hparameters : writeParameters ps ⊆ definitionCharacters := by
    refine List.Subset.trans (writeParameters_subset ps) (List.append_subset.2 ⟨by decide, ?_⟩)
    exact List.subset_append_of_subset_right _ (List.Subset.refl _)
  refine List.append_subset.2 ⟨List.append_subset.2 ⟨by decide, hname⟩, ?_⟩
  exact List.cons_subset.2 ⟨by decide, List.append_subset.2 ⟨hparameters, by decide⟩⟩

/-- In plain code such a character is shown, and starts nothing. -/
theorem step_of_mem {c : Char} (hc : c ∈ definitionCharacters) (before rest : List Char) :
    step [] before c rest = some (.show c []) := by
  have hall : ∀ c ∈ definitionCharacters,
      c ∉ ['#', '\x7b', '\x7d', '$', '"', '\x60', '\'', '<', '%', '/', '?'] :=
    List.all_iff_forall_prop.1 (by decide)
  have hne := hall c hc
  simp only [List.mem_cons, List.not_mem_nil, or_false, not_or] at hne
  simp [step, stepCode, hne]

/-- On a line of `definitionCharacters` nothing opens a literal, a heredoc or a comment. -/
theorem scanFrom_of_subset {line : List Char} (h : line ⊆ definitionCharacters)
    (before : List Char) (heredocs : List Heredoc) :
    scanFrom before [] heredocs line = ⟨⟨before.reverse ++ line, none⟩, [], heredocs⟩ := by
  induction line generalizing before heredocs with
  | nil => simp [scanFrom]
  | cons c line ih =>
    obtain ⟨hc, hline⟩ := List.cons_subset.1 h
    rw [scanFrom, step_of_mem hc]
    simp [Step.show, ih hline]

/-- A line that starts with a hash sign is a comment and nothing else. -/
theorem mask_hash (text : List Char) : Place.start.mask ('#' :: text) =
    (⟨Text.blanks ('#' :: text).length, some 0⟩, Place.start) := by
  have hbegin : Text.startsWith ('#' :: text) "=begin" = false := rfl
  have hend : (Text.dropReturns ('#' :: text) == endMarker) = false := by
    have hdrop := dropReturns_append (by decide : '#' ≠ '\r') [] text
    rw [List.nil_append] at hdrop
    rw [hdrop]
    rfl
  have hscan : scanLine [] ('#' :: text) =
      ⟨⟨Text.blanks ('#' :: text).length, some 0⟩, [], []⟩ := by
    rw [scanLine, scanFrom]
    rfl
  simp only [Place.mask, Place.start, hbegin, hend, hscan, List.isEmpty_nil, Bool.and_false,
    Bool.false_eq_true, if_false, Region.ofHeredocs]

/-- An empty line is masked as it is. -/
theorem mask_nil : Place.start.mask [] = (⟨[], none⟩, Place.start) := by
  have hbegin : Text.startsWith [] "=begin" = false := rfl
  have hend : (Text.dropReturns [] == endMarker) = false := rfl
  have hscan : scanLine [] [] = ⟨⟨[], none⟩, [], []⟩ := scanFrom_of_subset (List.nil_subset _) [] []
  simp [Place.mask, Place.start, hbegin, hend, hscan, Region.ofHeredocs]

/-- The first and the last word of the line. -/
theorem exists_definitionLine_eq (name : PlainName) (ps : List PlainParameter) :
    ∃ middle, definitionLine name ps = "def ".toList ++ middle ++ ['d'] :=
  have hend : "); end".toList = "); en".toList ++ ['d'] := by decide +kernel
  ⟨name.text ++ '(' :: (writeParameters ps ++ "); en".toList), by
    rw [definitionLine_eq, hend]
    simp only [List.append_assoc, List.cons_append]⟩

/-- `definitionLine` is written without carriage returns. -/
theorem dropReturns_definitionLine (name : PlainName) (ps : List PlainParameter) :
    Text.dropReturns (definitionLine name ps) = definitionLine name ps := by
  obtain ⟨middle, heq⟩ := exists_definitionLine_eq name ps
  rw [heq, dropReturns_append (by decide)]
  rfl

/-- Nothing on `definitionLine` is masked. -/
theorem mask_definitionLine (name : PlainName) (ps : List PlainParameter) :
    Place.start.mask (definitionLine name ps) = (⟨definitionLine name ps, none⟩, Place.start) := by
  have hbegin : Text.startsWith (definitionLine name ps) "=begin" = false := rfl
  have hend : (Text.dropReturns (definitionLine name ps) == endMarker) = false := by
    rw [dropReturns_definitionLine]
    rfl
  have hscan : scanLine [] (definitionLine name ps) = ⟨⟨definitionLine name ps, none⟩, [], []⟩ :=
    scanFrom_of_subset (definitionLine_subset name ps) [] []
  simp [Place.mask, Place.start, hbegin, hend, hscan, Region.ofHeredocs]

theorem isBlank_definitionLine (name : PlainName) (ps : List PlainParameter) :
    Text.isBlank (definitionLine name ps) = false := rfl

/-- `isDefinition` holds of `definitionLine`. -/
theorem isDefinition_definitionLine (name : PlainName) (ps : List PlainParameter) :
    Source.isDefinition (definitionLine name ps) = true := by
  obtain ⟨middle, heq⟩ := exists_definitionLine_eq name ps
  have hd : isSpace 'd' = false := by decide
  have htrim : Text.trim ("def ".toList ++ middle ++ ['d']) = "def ".toList ++ middle ++ ['d'] := by
    rw [Text.trim, Text.trimLeft, Text.trimRight]
    simp only [List.append_assoc]
    rw [show "def ".toList = ['d', 'e', 'f', ' '] from rfl, List.cons_append,
      List.dropWhile_cons_of_neg (by simp [hd])]
    simp [hd]
  rw [heq, Source.isDefinition, htrim]
  rfl

end TypeNotes.Ruby
