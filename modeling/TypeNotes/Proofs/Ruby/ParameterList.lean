import Mathlib.Data.Bool.AllAny
import TypeNotes.Proofs.Ruby.Respaced

/-!
# Parameter lists as they are written

The parameters of a method are written with commas between them, each in one of ten forms
(`ParameterForm`). Names are names of ASCII (`ParameterName`), and a default value is any text that
closes the brackets it opens and has no comma outside of them (`DefaultValue`). White space may
stand around each parameter, and a pattern in parentheses holds a list of parameters again.

**Splitting.** Brackets that a text opens and closes hide its commas from the splitter
(`splitTopLevel_append`), so a list is split where its parameters were joined
(`splitTopLevel_joinForms`). The splitter works on squeezed text: what it finds there are the parts
of the text itself, trimmed and respaced (`respaced_parameterParts`).

**Reading.** A part is read by its first characters, by its last one, and by what follows its name,
none of which depends on the white space in it. So each form is read as the parameters that it
stands for (`ParameterForm.reads`), by recursion into patterns.
-/

namespace TypeNotes.Ruby

open Unicode Text

/-! ### Names -/

/-- White space is no part of a word. -/
theorem isWord_of_isSpace {c : Char} (h : isSpace c = true) : isWord c = false := by
  have hall : ∀ code ∈ [9, 10, 11, 12, 13, 28, 29, 30, 31, 32, 0x85, 0xA0, 0x1680, 0x2000, 0x2001,
      0x2002, 0x2003, 0x2004, 0x2005, 0x2006, 0x2007, 0x2008, 0x2009, 0x200A, 0x2028, 0x2029,
      0x202F, 0x205F, 0x3000], isWord (Char.ofNat code) = false := by decide +kernel
  rw [← Char.ofNat_toNat c]
  refine hall c.toNat ?_
  simp only [isSpace, Bool.or_eq_true, Bool.and_eq_true, decide_eq_true_eq, beq_iff_eq] at h
  simp only [List.mem_cons, List.not_mem_nil, or_false]
  omega

/-- A character that starts a name is none of those that do not. -/
theorem ne_of_isNameStart {c d : Char} (hc : isNameStart c = true) (hd : isNameStart d = false) :
    c ≠ d := by
  rintro rfl
  rw [hd] at hc
  cases hc

theorem isWord_head? {c : Char} (hc : isWord c = false) (s : List Char) :
    ∀ d ∈ (c :: s).head?, isWord d = false := by
  intro d hd
  obtain rfl : c = d := by simpa using hd
  exact hc

/-- A run of characters of a class ends in front of one that is not of the class. -/
theorem cut_run {p : Char → Bool} {run tail : List Char} (hrun : ∀ c ∈ run, p c = true)
    (htail : ∀ c ∈ tail.head?, p c = false) :
    (run ++ tail).takeWhile p = run ∧ (run ++ tail).dropWhile p = tail := by
  rw [List.takeWhile_append_of_pos hrun, List.dropWhile_append_of_pos hrun]
  cases tail with
  | nil => simp
  | cons c tail =>
    have hc : p c = false := htail c rfl
    simp [hc]

/-- Characters of a class are none of those that are not of the class. -/
theorem not_mem_of_class {p : Char → Bool} {others : List Char} (h : ∀ d ∈ others, p d = false)
    {c : Char} (hc : p c = true) : c ∉ others := by
  intro hmem
  rw [h c hmem] at hc
  cases hc

/-- A name of a parameter: ASCII letters, digits and underscores, and no digit in front. -/
structure ParameterName where
  text : List Char
  start : text.head?.any isNameStart = true
  part : ∀ c ∈ text, (c.isAlphanum || c == '_') = true

/-- The characters that the splitter looks at: commas and brackets. -/
def separators : List Char := [',', '(', '[', '\x7b', ')', ']', '\x7d']

namespace ParameterName

variable (name : ParameterName)

/-- All characters of a name are parts of words. -/
theorem isWord {c : Char} (hc : c ∈ name.text) : isWord c = true := by
  have hpart := name.part c hc
  rw [Bool.or_eq_true] at hpart
  rcases hpart with h | h
  · simp [Unicode.isWord, isAlphanumeric, h]
  · simp [Unicode.isWord, h]

/-- No character of a name is white space. -/
theorem isSpace_eq {c : Char} (hc : c ∈ name.text) : isSpace c = false := by
  rw [Bool.eq_false_iff]
  intro hspace
  have hword := name.isWord hc
  rw [isWord_of_isSpace hspace] at hword
  cases hword

/-- No comma and no bracket stands in a name. -/
theorem not_mem_separators {c : Char} (hc : c ∈ name.text) : c ∉ separators :=
  not_mem_of_class (List.all_iff_forall_prop.1 (by decide)) (name.isWord hc)

/-- A name has a first character, which starts names. -/
theorem exists_cons : ∃ c more, name.text = c :: more ∧ isNameStart c = true := by
  have hstart := name.start
  cases htext : name.text with
  | nil => simp [htext] at hstart
  | cons c more => exact ⟨c, more, rfl, by simpa [htext] using hstart⟩

/-- `leadingName?` finds a name in front of what is no word, and what follows it. -/
theorem leadingName?_append {tail : List Char}
    (htail : ∀ c ∈ tail.head?, Unicode.isWord c = false) :
    leadingName? (name.text ++ tail) = some (name.text, trimLeft tail) := by
  obtain ⟨c, more, htext, hc⟩ := name.exists_cons
  have hmore : ∀ d ∈ more, Unicode.isWord d = true := fun d hd =>
    name.isWord (htext ▸ List.mem_cons_of_mem _ hd)
  obtain ⟨htake, hdrop⟩ := cut_run hmore htail
  rw [htext, List.cons_append, leadingName?, if_pos hc, htake, hdrop]

/-- For `partParameters`, a part that starts with a name is no pattern and has no mark in front. -/
theorem partParameters_append (tail : List Char) :
    destructured? (name.text ++ tail) = none ∧
      simpleParameter? (name.text ++ tail) = namedParameter? (name.text ++ tail) := by
  obtain ⟨c, more, htext, hc⟩ := name.exists_cons
  have hdot : c ≠ '.' := ne_of_isNameStart hc (by decide)
  have hampersand : c ≠ '&' := ne_of_isNameStart hc (by decide)
  have hstar : c ≠ '*' := ne_of_isNameStart hc (by decide)
  have hopen : c ≠ '(' := ne_of_isNameStart hc (by decide)
  rw [htext, List.cons_append]
  simp [destructured?, simpleParameter?, hdot, hampersand, hstar, hopen]

end ParameterName

/-! ### Brackets -/

/-- How many brackets are open behind a character, `depth` being open in front of it. A bracket
that was not open cannot be closed, and a comma cannot stand outside of all brackets. -/
def bracketStep (depth : Nat) (c : Char) : Option Nat :=
  if c ∈ ['(', '[', '\x7b'] then some (depth + 1)
  else if c ∈ [')', ']', '\x7d'] then if depth = 0 then none else some (depth - 1)
  else if c = ',' ∧ depth = 0 then none
  else some depth

/-- How many brackets are open behind a text. -/
def openBrackets (depth : Nat) (s : List Char) : Option Nat := s.foldlM bracketStep depth

/-- `openBrackets` counts through one text and on through the next. -/
theorem openBrackets_append (depth : Nat) (s t : List Char) :
    openBrackets depth (s ++ t) = (openBrackets depth s).bind (openBrackets · t) :=
  List.foldlM_append

theorem openBrackets_cons (depth : Nat) (c : Char) (s : List Char) :
    openBrackets depth (c :: s) = (bracketStep depth c).bind (openBrackets · s) := rfl

/-- `openBrackets` leaves the depth as it is over a text without brackets and commas. -/
theorem openBrackets_of_not_mem {s : List Char} (h : ∀ c ∈ s, c ∉ separators) (depth : Nat) :
    openBrackets depth s = some depth := by
  induction s with
  | nil => rfl
  | cons c s ih =>
    obtain ⟨hc, hs⟩ := List.forall_mem_cons.1 h
    have hstep : bracketStep depth c = some depth := by
      simp only [separators, List.mem_cons, List.not_mem_nil, or_false, not_or] at hc
      simp [bracketStep, hc]
    rw [openBrackets_cons, hstep]
    exact ih hs

/-- A `bracketStep` that is allowed at one depth is allowed further inside. -/
theorem bracketStep_add {n m : Nat} {c : Char} (h : bracketStep n c = some m) (k : Nat) :
    bracketStep (n + k) c = some (m + k) := by
  unfold bracketStep at h ⊢
  split_ifs at h with hopen hclose hzero hcomma
  · cases h
    rw [if_pos hopen, Nat.add_right_comm]
  · cases h
    rw [if_neg hopen, if_pos hclose, if_neg (by omega), Nat.sub_add_comm (by omega)]
  · cases h
    have hmore : ¬(c = ',' ∧ n + k = 0) := fun hboth => hcomma ⟨hboth.1, by omega⟩
    rw [if_neg hopen, if_neg hclose, if_neg hmore]

/-- More open brackets are no obstacle. -/
theorem openBrackets_add {n m : Nat} {s : List Char} (h : openBrackets n s = some m) (k : Nat) :
    openBrackets (n + k) s = some (m + k) := by
  induction s generalizing n with
  | nil => cases h; rfl
  | cons c s ih =>
    obtain ⟨depth, hstep, hrest⟩ := Option.bind_eq_some_iff.1 h
    rw [openBrackets_cons, bracketStep_add hstep]
    exact ih hrest

/-- Texts that close their brackets may be joined by commas inside of brackets. -/
theorem openBrackets_intercalate {texts : List (List Char)}
    (h : ∀ s ∈ texts, openBrackets 0 s = some 0) :
    openBrackets 1 ([','].intercalate texts) = some 1 := by
  induction texts with
  | nil => rfl
  | cons s texts ih =>
    obtain ⟨hs, htexts⟩ := List.forall_mem_cons.1 h
    cases texts with
    | nil =>
      rw [List.intercalate_singleton]
      exact openBrackets_add hs 1
    | cons t texts =>
      rw [List.intercalate_cons_cons, openBrackets_append, openBrackets_append,
        openBrackets_add hs 1]
      exact ih htexts

/-! ### Splitting -/

/-- What a character adds to the depth of the splitter. -/
def turn (c : Char) : Int :=
  if c ∈ ['(', '[', '\x7b'] then 1
  else if c ∈ [')', ']', '\x7d'] then -1
  else 0

/-- `splitTopLevel` gives a part, if only an empty one. -/
theorem splitTopLevel_ne_nil (depth : Int) (s : List Char) : splitTopLevel depth s ≠ [] := by
  cases s with
  | nil => simp [splitTopLevel]
  | cons c s => grind [splitTopLevel]

/-- `splitTopLevel` starts a part at a comma outside of brackets, and adds every other character to
the first part. -/
theorem splitTopLevel_cons (depth : Int) (c : Char) (s : List Char) :
    splitTopLevel depth (c :: s) =
      if c == ',' && depth + turn c == 0 then [] :: splitTopLevel (depth + turn c) s
      else (splitTopLevel (depth + turn c) s).modifyHead (c :: ·) := by
  have hdepth : (if c == '(' || c == '[' || c == '\x7b' then depth + 1
      else if c == ')' || c == ']' || c == '\x7d' then depth - 1 else depth) = depth + turn c := by
    simp only [turn, Bool.or_eq_true, beq_iff_eq, List.mem_cons, List.not_mem_nil, or_false,
      or_assoc]
    split_ifs <;> omega
  rw [splitTopLevel]
  simp only [hdepth]
  obtain ⟨part, more, hsplit⟩ :=
    List.exists_cons_of_ne_nil (splitTopLevel_ne_nil (depth + turn c) s)
  rw [hsplit, List.modifyHead_cons]

/-- Other characters belong to the first part. -/
theorem splitTopLevel_append_of_not_mem {s : List Char} (h : ∀ c ∈ s, c ∉ separators) (depth : Int)
    (t : List Char) :
    splitTopLevel depth (s ++ t) = (splitTopLevel depth t).modifyHead (s ++ ·) := by
  induction s with
  | nil => exact (congrFun List.modifyHead_id _).symm
  | cons c s ih =>
    obtain ⟨hc, hs⟩ := List.forall_mem_cons.1 h
    simp only [separators, List.mem_cons, List.not_mem_nil, or_false, not_or] at hc
    have hturn : turn c = 0 := by simp [turn, hc]
    rw [List.cons_append, splitTopLevel_cons, hturn, Int.add_zero, if_neg (by simp [hc]), ih hs,
      List.modifyHead_modifyHead]
    rfl

/-- The splitter counts brackets, and does not split. -/
theorem turn_of_bracketStep {n m : Nat} {c : Char} (h : bracketStep n c = some m) :
    (n : Int) + turn c = m ∧ (c == ',' && (m : Int) == 0) = false := by
  unfold bracketStep at h
  unfold turn
  split_ifs at h ⊢ with hopen hclose hzero hcomma
  · have hne : c ≠ ',' := by rintro rfl; revert hopen; decide
    cases h
    exact ⟨by omega, by simp [hne]⟩
  · have hne : c ≠ ',' := by rintro rfl; revert hclose; decide
    cases h
    exact ⟨by omega, by simp [hne]⟩
  · cases h
    refine ⟨by omega, ?_⟩
    rw [not_and] at hcomma
    simpa using hcomma

/-- For `splitTopLevel`, a text that closes its brackets belongs to the first part. -/
theorem splitTopLevel_append {n m : Nat} {s : List Char} (h : openBrackets n s = some m)
    (t : List Char) :
    splitTopLevel n (s ++ t) = (splitTopLevel m t).modifyHead (s ++ ·) := by
  induction s generalizing n with
  | nil =>
    cases h
    exact (congrFun List.modifyHead_id _).symm
  | cons c s ih =>
    obtain ⟨depth, hstep, hrest⟩ := Option.bind_eq_some_iff.1 h
    obtain ⟨hdepth, hcomma⟩ := turn_of_bracketStep hstep
    rw [List.cons_append, splitTopLevel_cons, hdepth, hcomma, if_neg Bool.false_ne_true, ih hrest,
      List.modifyHead_modifyHead]
    rfl

/-- `splitTopLevel` splits a list where it was joined. -/
theorem splitTopLevel_intercalate {texts : List (List Char)} (hne : texts ≠ [])
    (h : ∀ s ∈ texts, openBrackets 0 s = some 0) :
    splitTopLevel 0 ([','].intercalate texts) = texts := by
  induction texts with
  | nil => exact absurd rfl hne
  | cons s texts ih =>
    obtain ⟨hs, htexts⟩ := List.forall_mem_cons.1 h
    cases texts with
    | nil =>
      have hsplit := splitTopLevel_append hs []
      rw [List.append_nil] at hsplit
      rw [List.intercalate_singleton]
      exact hsplit.trans (by simp [splitTopLevel])
    | cons t texts =>
      have hrest := ih (List.cons_ne_nil t texts) htexts
      have hcomma : splitTopLevel 0 (',' :: [','].intercalate (t :: texts)) =
          [] :: splitTopLevel 0 ([','].intercalate (t :: texts)) := rfl
      have hsplit := splitTopLevel_append hs (',' :: [','].intercalate (t :: texts))
      rw [Int.natCast_zero, hcomma, hrest, List.modifyHead_cons, List.append_nil] at hsplit
      rwa [List.intercalate_cons_cons, List.append_assoc, List.singleton_append]

/-! ### Squeezed text -/

/-- White space is no comma and no bracket. -/
theorem not_mem_separators_of_isSpace {c : Char} (h : isSpace c = true) : c ∉ separators :=
  not_mem_of_class (List.all_iff_forall_prop.1 (by decide)) h

/-- Changing the heads of two related lists in related ways keeps the lists related. -/
theorem forall₂_modifyHead {R : List Char → List Char → Prop} {f g : List Char → List Char}
    (hfg : ∀ p q, R p q → R (f p) (g q)) {ps qs : List (List Char)} (h : List.Forall₂ R ps qs) :
    List.Forall₂ R (ps.modifyHead f) (qs.modifyHead g) := by
  cases h with
  | nil => exact .nil
  | cons hpq hmore => exact .cons (hfg _ _ hpq) hmore

/-- `splitTopLevel` gives respaced parts for respaced text. -/
theorem respaced_splitTopLevel {s t : List Char} (h : Respaced s t) (depth : Int) :
    List.Forall₂ Respaced (splitTopLevel depth s) (splitTopLevel depth t) := by
  induction h generalizing depth with
  | nil => exact .cons .nil .nil
  | cons c _ ih =>
    rw [splitTopLevel_cons, splitTopLevel_cons]
    split
    · exact .cons .nil (ih _)
    · exact forall₂_modifyHead (fun _ _ => .cons c) (ih _)
  | @space a b s t ha hb hspace _ ih =>
    have hseparators : ∀ c ∈ a ++ b, c ∉ separators := fun c hc =>
      not_mem_separators_of_isSpace (hspace c hc)
    rw [List.forall_mem_append] at hseparators
    rw [splitTopLevel_append_of_not_mem hseparators.1,
      splitTopLevel_append_of_not_mem hseparators.2]
    exact forall₂_modifyHead (fun _ _ => .space ha hb hspace) (ih depth)

/-- For `splitTopLevel`, white space at the end of a text belongs to the last part. -/
theorem splitTopLevel_append_space {b : List Char} (hb : ∀ c ∈ b, isSpace c = true)
    (s : List Char) (depth : Int) :
    List.Forall₂ (fun p q => ∃ e, (∀ c ∈ e, isSpace c = true) ∧ q = p ++ e)
      (splitTopLevel depth s) (splitTopLevel depth (s ++ b)) := by
  induction s generalizing depth with
  | nil =>
    have hsplit := splitTopLevel_append_of_not_mem
      (fun c hc => not_mem_separators_of_isSpace (hb c hc)) depth []
    rw [List.append_nil] at hsplit
    rw [List.nil_append, hsplit]
    exact .cons ⟨b, hb, by simp⟩ .nil
  | cons c s ih =>
    rw [List.cons_append, splitTopLevel_cons, splitTopLevel_cons]
    split
    · exact .cons ⟨[], by simp, rfl⟩ (ih _)
    · refine forall₂_modifyHead ?_ (ih _)
      rintro p q ⟨e, he, rfl⟩
      exact ⟨e, he, rfl⟩

/-- White space around a text is trimmed off its parts. -/
theorem map_trim_splitTopLevel_trim (s : List Char) :
    (splitTopLevel 0 (trim s)).map trim = (splitTopLevel 0 s).map trim := by
  obtain ⟨a, b, ha, hb, hs⟩ := exists_around_trim s
  have hfront : (splitTopLevel 0 s).map trim = (splitTopLevel 0 (trim s ++ b)).map trim := by
    conv_lhs =>
      rw [hs, splitTopLevel_append_of_not_mem fun c hc => not_mem_separators_of_isSpace (ha c hc)]
    generalize splitTopLevel 0 (trim s ++ b) = parts
    cases parts with
    | nil => rfl
    | cons part more =>
      rw [List.modifyHead_cons, List.map_cons, List.map_cons]
      have htrim := trim_around (b := []) ha (by simp) part
      rw [List.append_nil] at htrim
      rw [htrim]
  rw [hfront, ← List.forall₂_eq_eq_eq, List.forall₂_map_left_iff, List.forall₂_map_right_iff]
  refine (splitTopLevel_append_space hb (trim s) 0).imp ?_
  rintro p q ⟨e, he, rfl⟩
  exact (trim_append_space he p).symm

/-- `parameterParts` are those of the text itself, trimmed and respaced. -/
theorem respaced_parameterParts (s : List Char) :
    List.Forall₂ Respaced ((splitTopLevel 0 s).map trim) (parameterParts s) := by
  rw [← map_trim_splitTopLevel_trim, parameterParts, List.forall₂_map_left_iff,
    List.forall₂_map_right_iff]
  exact (respaced_splitTopLevel (respaced_squeeze s) 0).imp fun _ _ h => h.trim

/-! ### Parameters -/

/-- White space, or nothing. -/
structure Gap where
  text : List Char
  blank : ∀ c ∈ text, isSpace c = true

/-- A default value: it closes the brackets that it opens, no comma stands outside of them, and it
has no white space at its ends. -/
structure DefaultValue where
  text : List Char
  ne : text ≠ []
  trimmed : trim text = text
  balanced : openBrackets 0 text = some 0

/-- A default value starts with a visible character. -/
theorem DefaultValue.exists_cons (default : DefaultValue) :
    ∃ c more, default.text = c :: more ∧ isSpace c = false := by
  obtain ⟨c, more, htext⟩ := List.exists_cons_of_ne_nil default.ne
  refine ⟨c, more, htext, not_isSpace_head?_trim default.text c ?_⟩
  rw [default.trimmed, htext]
  rfl

/-- A parameter as it is written in a list. Behind asterisks and ampersands the name may be left
out, `**nil` is no parameter, and a pattern in parentheses holds a list of parameters. -/
inductive ParameterForm
  | required (name : ParameterName)
  | optional (name : ParameterName) (default : DefaultValue)
  | rest (name : Option ParameterName)
  | keyword (name : ParameterName)
  | optionalKeyword (name : ParameterName) (default : DefaultValue)
  | keywordRest (name : Option ParameterName) (ne : ∀ n ∈ name, n.text ≠ "nil".toList)
  | block (name : Option ParameterName)
  | forward
  | pattern (gap : Gap) (inside : List ParameterForm)
  /-- A parameter with white space around it. -/
  | padded (before : Gap) (form : ParameterForm) (after : Gap)

namespace ParameterForm

mutual

/-- How a parameter is written. -/
def written : ParameterForm → List Char
  | required name => name.text
  | optional name default => name.text ++ ' ' :: '=' :: ' ' :: default.text
  | rest name => '*' :: name.elim [] ParameterName.text
  | keyword name => name.text ++ [':']
  | optionalKeyword name default => name.text ++ ':' :: ' ' :: default.text
  | keywordRest name _ => '*' :: '*' :: name.elim [] ParameterName.text
  | block name => '&' :: name.elim [] ParameterName.text
  | forward => ['.', '.', '.']
  | pattern gap inside => '(' :: (gap.text ++ [','].intercalate (writtenAll inside) ++ [')'])
  | padded before form after => before.text ++ (form.written ++ after.text)

/-- How each parameter of a list is written. -/
def writtenAll : List ParameterForm → List (List Char)
  | [] => []
  | form :: more => form.written :: writtenAll more

end

mutual

/-- The names in a parameter, from left to right. -/
def names : ParameterForm → List (List Char)
  | required name | optional name _ | keyword name | optionalKeyword name _ => [name.text]
  | rest name | keywordRest name _ | block name => (name.map ParameterName.text).toList
  | forward => []
  | pattern _ inside => namesAll inside
  | padded _ form _ => form.names

/-- The names in a list of parameters. -/
def namesAll : List ParameterForm → List (List Char)
  | [] => []
  | form :: more => form.names ++ namesAll more

end

/-- The parameters that are written: each name in a pattern is a required one. -/
def parameters : ParameterForm → List Parameter
  | required name => [.required name.text]
  | optional name _ => [.optional name.text]
  | rest name => [.rest (name.map ParameterName.text)]
  | keyword name => [.keyword name.text]
  | optionalKeyword name _ => [.optionalKeyword name.text]
  | keywordRest name _ => [.keywordRest (name.map ParameterName.text)]
  | block name => [.block (name.map ParameterName.text)]
  | forward => [.forward]
  | pattern _ inside => (namesAll inside).map .required
  | padded _ form _ => form.parameters

/-- A list of parameters, with commas between them. -/
def join (forms : List ParameterForm) : List Char := [','].intercalate (forms.map written)

/-- Joined parameters have a comma behind the first one. -/
theorem join_cons_cons (form next : ParameterForm) (more : List ParameterForm) :
    join (form :: next :: more) = form.written ++ ',' :: join (next :: more) := by
  simp only [join, List.map_cons, List.intercalate_cons_cons, List.append_assoc,
    List.singleton_append]

theorem writtenAll_eq (forms : List ParameterForm) : writtenAll forms = forms.map written := by
  induction forms with
  | nil => rfl
  | cons form more ih => rw [writtenAll, ih, List.map_cons]

theorem namesAll_eq (forms : List ParameterForm) : namesAll forms = forms.flatMap names := by
  induction forms with
  | nil => rfl
  | cons form more ih => rw [namesAll, ih, List.flatMap_cons]

/-- `boundName?` of each parameter gives the names that are written. -/
theorem filterMap_boundName? :
    ∀ form : ParameterForm, form.parameters.filterMap Parameter.boundName? = form.names
  | required _ | optional _ _ | keyword _ | optionalKeyword _ _ | forward => rfl
  | rest name | keywordRest name _ | block name => by cases name <;> rfl
  | pattern gap inside => by
    rw [parameters, names, List.filterMap_map]
    exact List.filterMap_some
  | padded _ form _ => filterMap_boundName? form

/-! ### Brackets of a parameter -/

/-- No comma and no bracket stands in a name that may be left out. -/
theorem not_mem_separators_text (name : Option ParameterName) :
    ∀ c ∈ name.elim [] ParameterName.text, c ∉ separators := by
  cases name with
  | none => simp
  | some name => exact fun c hc => name.not_mem_separators hc

/-- A pattern closes its parentheses if the parameters in it close theirs. -/
theorem openBrackets_pattern (gap : Gap) {inside : List ParameterForm}
    (h : ∀ form ∈ inside, openBrackets 0 form.written = some 0) :
    openBrackets 0 (pattern gap inside).written = some 0 := by
  have hgap : openBrackets 1 gap.text = some 1 :=
    openBrackets_of_not_mem (fun c hc => not_mem_separators_of_isSpace (gap.blank c hc)) 1
  have hinside : openBrackets 1 ([','].intercalate (inside.map written)) = some 1 :=
    openBrackets_intercalate (List.forall_mem_map.2 h)
  have hopen : bracketStep 0 '(' = some 1 := by decide
  rw [written, writtenAll_eq, openBrackets_cons, hopen, Option.bind_some, openBrackets_append,
    openBrackets_append, hgap, Option.bind_some, hinside]
  rfl

mutual

/-- A parameter as it is written closes the brackets that it opens (`openBrackets`). -/
theorem openBrackets_written : ∀ form : ParameterForm, openBrackets 0 form.written = some 0
  | required name => openBrackets_of_not_mem (fun _ => name.not_mem_separators) 0
  | optional name default => by
    rw [written, openBrackets_append, openBrackets_of_not_mem fun _ => name.not_mem_separators]
    exact default.balanced
  | rest name => openBrackets_of_not_mem (not_mem_separators_text name) 0
  | keyword name => by
    rw [written, openBrackets_append, openBrackets_of_not_mem fun _ => name.not_mem_separators]
    rfl
  | optionalKeyword name default => by
    rw [written, openBrackets_append, openBrackets_of_not_mem fun _ => name.not_mem_separators]
    exact default.balanced
  | keywordRest name _ => openBrackets_of_not_mem (not_mem_separators_text name) 0
  | block name => openBrackets_of_not_mem (not_mem_separators_text name) 0
  | forward => rfl
  | pattern gap inside => openBrackets_pattern gap (openBrackets_writtenAll inside)
  | padded before form after => by
    have hgap (gap : Gap) : openBrackets 0 gap.text = some 0 :=
      openBrackets_of_not_mem (fun c hc => not_mem_separators_of_isSpace (gap.blank c hc)) 0
    rw [written, openBrackets_append, hgap, Option.bind_some, openBrackets_append,
      openBrackets_written form]
    exact hgap after

/-- A list of parameters closes the brackets that it opens. -/
theorem openBrackets_writtenAll :
    ∀ forms : List ParameterForm, ∀ form ∈ forms, openBrackets 0 form.written = some 0
  | [] => by simp
  | form :: more =>
    List.forall_mem_cons.2 ⟨openBrackets_written form, openBrackets_writtenAll more⟩

end

/-! ### Reading a part -/

/-- The parameters of one part of a list. -/
def partParameters (part : List Char) : List Parameter :=
  match destructured? part with
  | some inside => ((parseParameters inside).filterMap Parameter.boundName?).map .required
  | none => (simpleParameter? part).toList

/-- A parameter is read as it was written, however its white space is squeezed. -/
def Reads (form : ParameterForm) : Prop :=
  ∀ part, Respaced (trim form.written) part → partParameters part = form.parameters

/-- The part of a parameter without white space in it. -/
theorem reads_of_not_space {form : ParameterForm} (hspace : ∀ c ∈ form.written, isSpace c = false)
    (h : partParameters form.written = form.parameters) : form.Reads := by
  intro part hpart
  rw [trim_eq_self fun c hc => hspace c (List.mem_of_mem_head? hc)] at hpart
  · rwa [hpart.eq_of_not_space hspace]
  · exact fun c hc => hspace c (List.mem_of_mem_getLast? hc)

/-- The part of a parameter with a default value. -/
theorem exists_part_of_default (name : ParameterName) (middle : List Char) (default : DefaultValue)
    {part : List Char}
    (h : Respaced (trim (name.text ++ (middle ++ default.text))) part) :
    ∃ tail, part = name.text ++ tail ∧ Respaced (middle ++ default.text) tail := by
  have hlast := not_isSpace_getLast?_trim default.text
  rw [default.trimmed] at hlast
  rw [trim_eq_self] at h
  · exact h.eq_append fun _ => name.isSpace_eq
  · obtain ⟨c, more, htext, -⟩ := name.exists_cons
    have hc : isSpace c = false := name.isSpace_eq (htext ▸ List.mem_cons_self)
    simpa [htext] using hc
  · rwa [← List.append_assoc, List.getLast?_append_of_ne_nil _ default.ne]

/-- The part of a named parameter, from what follows the name. -/
theorem partParameters_name (name : ParameterName) {tail : List Char}
    (htail : ∀ c ∈ tail.head?, isWord c = false) :
    partParameters (name.text ++ tail) = (namedParameter? (name.text ++ tail)).toList ∧
      leadingName? (name.text ++ tail) = some (name.text, trimLeft tail) := by
  obtain ⟨hpattern, hsimple⟩ := name.partParameters_append tail
  rw [partParameters, hpattern, hsimple]
  exact ⟨rfl, name.leadingName?_append htail⟩

/-- A name by itself is read as a required parameter. -/
theorem reads_required (name : ParameterName) : (required name).Reads := by
  refine reads_of_not_space (fun _ => name.isSpace_eq) ?_
  have hend : ∀ c ∈ ([] : List Char).head?, isWord c = false := by simp
  obtain ⟨hpart, hname⟩ := partParameters_name name hend
  rw [List.append_nil] at hpart hname
  rw [written, hpart, namedParameter?, hname]
  simp [trimLeft, parameters]

/-- A name with a colon behind it is read as a required keyword. -/
theorem reads_keyword (name : ParameterName) : (keyword name).Reads := by
  refine reads_of_not_space ?_ ?_
  · exact List.forall_mem_append.2
      ⟨fun _ => name.isSpace_eq, List.forall_mem_singleton.2 (by decide)⟩
  · obtain ⟨hpart, hname⟩ :=
      partParameters_name name (isWord_head? (by decide : isWord ':' = false) [])
    have htrim : trimLeft [':'] = [':'] := by decide
    rw [written, hpart, namedParameter?, hname, htrim]
    rfl

/-- A name with a default value is read as an optional parameter, whatever the value is. -/
theorem reads_optional (name : ParameterName) (default : DefaultValue) :
    (optional name default).Reads := by
  intro part hpart
  obtain ⟨tail, rfl, htail⟩ := exists_part_of_default name [' ', '=', ' '] default hpart
  obtain ⟨d, more, rfl, hd⟩ := htail.exists_space (by decide)
  obtain ⟨hread, hname⟩ := partParameters_name name (isWord_head? (isWord_of_isSpace hd) more)
  have htrim : Respaced ('=' :: ' ' :: default.text) (trimLeft (d :: more)) := htail.trimLeft
  obtain ⟨after, hafter, -⟩ := htrim.eq_cons (by decide)
  rw [hread, namedParameter?, hname, hafter]
  rfl

/-- A keyword with a default value is read as an optional keyword, whatever the value is. -/
theorem reads_optionalKeyword (name : ParameterName) (default : DefaultValue) :
    (optionalKeyword name default).Reads := by
  intro part hpart
  obtain ⟨tail, rfl, htail⟩ := exists_part_of_default name [':', ' '] default hpart
  obtain ⟨after, rfl, hafter⟩ := htail.eq_cons (by decide)
  obtain ⟨d, more, rfl, hd⟩ := hafter.exists_space (by decide)
  obtain ⟨hread, hname⟩ :=
    partParameters_name name (isWord_head? (by decide : isWord ':' = false) (d :: more))
  have htrim : trimLeft (':' :: d :: more) = ':' :: d :: more :=
    List.dropWhile_cons_of_neg (by decide)
  have hcolon : d ≠ ':' := by
    rintro rfl
    revert hd
    decide
  have hblank : isBlank (d :: more) = false := by
    obtain ⟨c, text, htext, hc⟩ := default.exists_cons
    rw [hafter.isBlank_eq, htext]
    simp [isBlank, hc]
  rw [hread, namedParameter?, hname, htrim]
  simp [hcolon, hblank, parameters]

/-! ### Marks in front of names -/

theorem isSpace_text (name : Option ParameterName) :
    ∀ c ∈ name.elim [] ParameterName.text, isSpace c = false := by
  cases name with
  | none => simp
  | some name => exact fun _ => name.isSpace_eq

/-- A name that may be left out, as it is read behind a mark. -/
theorem trim_text (name : Option ParameterName) :
    trim (name.elim [] ParameterName.text) = name.elim [] ParameterName.text :=
  trim_eq_self (fun c hc => isSpace_text name c (List.mem_of_mem_head? hc))
    fun c hc => isSpace_text name c (List.mem_of_mem_getLast? hc)

/-- `nonEmpty?` reads a name that is left out as none. -/
theorem nonEmpty?_text (name : Option ParameterName) :
    nonEmpty? (name.elim [] ParameterName.text) = name.map ParameterName.text := by
  cases name with
  | none => rfl
  | some name =>
    obtain ⟨c, more, htext, -⟩ := name.exists_cons
    simp [nonEmpty?, htext]

/-- An asterisk, perhaps with a name, takes the other positional arguments. -/
theorem reads_rest (name : Option ParameterName) : (rest name).Reads := by
  refine reads_of_not_space (List.forall_mem_cons.2 ⟨by decide, isSpace_text name⟩) ?_
  have hname : simpleParameter? (rest name).written =
      some (.rest (name.map ParameterName.text)) := by
    have htrim := trim_text name
    have htext := nonEmpty?_text name
    cases name with
    | none => rfl
    | some name =>
      -- A second asterisk would make it a double splat.
      obtain ⟨c, more, hcons, hc⟩ := name.exists_cons
      have hne : c ≠ '*' := ne_of_isNameStart hc (by decide)
      simp only [Option.elim_some, hcons] at htrim htext
      simp [written, simpleParameter?, hcons, hne, htrim, htext]
  rw [partParameters, hname]
  rfl

/-- Two asterisks, perhaps with a name other than `nil`, take the other keywords. -/
theorem reads_keywordRest (name : Option ParameterName) (hnil : ∀ n ∈ name, n.text ≠ "nil".toList) :
    (keywordRest name hnil).Reads := by
  refine reads_of_not_space ?_ ?_
  · exact List.forall_mem_cons.2
      ⟨by decide, List.forall_mem_cons.2 ⟨by decide, isSpace_text name⟩⟩
  · have hne : name.elim [] ParameterName.text ≠ "nil".toList := by
      cases name with
      | none => simp
      | some name => exact hnil name rfl
    simp only [partParameters, destructured?, simpleParameter?, written, parameters, trim_text,
      nonEmpty?_text]
    rw [if_neg (by simp), if_neg (by simpa using hne)]
    rfl

/-- An ampersand, perhaps with a name, takes the block. -/
theorem reads_block (name : Option ParameterName) : (block name).Reads := by
  refine reads_of_not_space (List.forall_mem_cons.2 ⟨by decide, isSpace_text name⟩) ?_
  simp [partParameters, destructured?, simpleParameter?, written, parameters, trim_text,
    nonEmpty?_text]

/-- Three dots forward all arguments. -/
theorem reads_forward : forward.Reads :=
  reads_of_not_space (List.all_iff_forall_prop.1 (by decide)) (by rfl)

/-- White space around a parameter does not matter (`Reads`). -/
theorem Reads.padded {form : ParameterForm} (h : form.Reads) (before after : Gap) :
    (padded before form after).Reads := by
  intro part hpart
  rw [written, trim_around before.blank after.blank] at hpart
  exact h part hpart

/-! ### Reading a list -/

/-- `parseParameters` reads a list of parameters as its parameters are read. -/
theorem parseParameters_join {forms : List ParameterForm} (h : ∀ form ∈ forms, form.Reads) :
    parseParameters (join forms) = forms.flatMap parameters := by
  by_cases hne : forms = []
  · subst hne
    rw [parseParameters_eq]
    rfl
  · have hparts := respaced_parameterParts (join forms)
    have hsplit : splitTopLevel 0 (join forms) = forms.map written :=
      splitTopLevel_intercalate (by simpa using hne)
        (List.forall_mem_map.2 fun form _ => form.openBrackets_written)
    rw [hsplit, List.map_map, List.forall₂_map_left_iff] at hparts
    have hread : forms.map parameters = (parameterParts (join forms)).map partParameters := by
      rw [← List.forall₂_eq_eq_eq, List.forall₂_map_left_iff, List.forall₂_map_right_iff]
      exact ((List.forall₂_and_left _ _).2 ⟨h, hparts⟩).imp fun _ part hform =>
        (hform.1 part hform.2).symm
    rw [List.flatMap_def, hread, ← List.flatMap_def]
    exact parseParameters_eq _

/-- A pattern in parentheses is read as required parameters, one for each name in it, if the forms
inside of it are read. -/
theorem reads_pattern (gap : Gap) {inside : List ParameterForm} (h : ∀ form ∈ inside, form.Reads) :
    (pattern gap inside).Reads := by
  intro part hpart
  have hwritten : (pattern gap inside).written = '(' :: (gap.text ++ join inside ++ [')']) := by
    rw [written, writtenAll_eq, join]
  have hlast : isSpace ')' = false := by decide
  have htrim : trim (pattern gap inside).written = (pattern gap inside).written := by
    rw [hwritten]
    refine trim_eq_self ?_ ?_
    · simp [show isSpace '(' = false by decide]
    · rw [← List.cons_append, List.getLast?_concat]
      simp [hlast]
  rw [htrim, hwritten] at hpart
  obtain ⟨tail, rfl, htail⟩ := hpart.eq_cons (by decide)
  obtain ⟨text, rfl, htext⟩ := htail.eq_append_singleton hlast
  have hinside : destructured? ('(' :: (text ++ [')'])) = some text := by
    simp [destructured?]
  have hwords : words text = words (join inside) :=
    (htext.wordsFrom_eq []).trans (words_space_append gap.blank _)
  rw [partParameters, hinside]
  simp only
  rw [parseParameters_congr hwords, parseParameters_join h, List.filterMap_flatMap, parameters,
    namesAll_eq]
  simp only [filterMap_boundName?]

mutual

/-- Every parameter is read as it was written. -/
theorem reads : ∀ form : ParameterForm, form.Reads
  | required name => reads_required name
  | optional name default => reads_optional name default
  | rest name => reads_rest name
  | keyword name => reads_keyword name
  | optionalKeyword name default => reads_optionalKeyword name default
  | keywordRest name hnil => reads_keywordRest name hnil
  | block name => reads_block name
  | forward => reads_forward
  | pattern gap inside => reads_pattern gap (reads_of_mem inside)
  | padded before form after => (reads form).padded before after

theorem reads_of_mem : ∀ forms : List ParameterForm, ∀ form ∈ forms, form.Reads
  | [] => by simp
  | form :: more => List.forall_mem_cons.2 ⟨reads form, reads_of_mem more⟩

end

end ParameterForm

/-- **Reading undoes writing.** A list of parameters in any of the forms, with patterns nested to
any depth and any white space around the commas, is read as the parameters that were written, in
this order; a pattern stands for the names in it, each as a required parameter. -/
theorem parameters_read_as_written (forms : List ParameterForm) :
    parseParameters (ParameterForm.join forms) = forms.flatMap ParameterForm.parameters :=
  ParameterForm.parseParameters_join fun form _ => form.reads

end TypeNotes.Ruby
