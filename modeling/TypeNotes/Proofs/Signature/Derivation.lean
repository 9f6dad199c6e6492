import TypeNotes.Signature.Grammar

/-!
# The grammar of types as rules

The grammar of types and method types, as a context-free grammar over tokens. A `Form` describes
lists of tokens the way a grammar is written down: tokens of a class, nonterminals, and sequences,
alternatives, optional parts and repetitions of forms. `Nonterminal.rule` gives the form of each
nonterminal, and `Derives` says which lists of tokens have a form. No order or preference among
the alternatives is meant: whatever can be derived in some way is derived.

Brackets at the start of a method type are always those of its type parameters. The type of `self`
in a method type therefore comes after type parameters or after parameters, never first.

`Cut` is the same from the side of a reader, which cuts a phrase off the front of some tokens.
-/

namespace TypeNotes.Signature

/-! ### Forms -/

/-- The phrases that have a rule of their own. -/
inductive Nonterminal
  | type
  | intersection
  | optional
  | simple
  | types
  | name
  | field
  | parameters
  | positional
  | keyed
  | selfBinding
  | block
  | blockSignature
  | methodType
  | typeParameters
  | typeParameter
  deriving DecidableEq, Repr

/-- A description of lists of tokens. -/
inductive Form
  /-- One token of a class. -/
  | token (fits : Token → Bool)
  /-- What the rule of a nonterminal describes. -/
  | phrase (n : Nonterminal)
  /-- One form after another. -/
  | andThen (a b : Form)
  /-- One form or another. -/
  | orElse (a b : Form)
  /-- A form or nothing. -/
  | maybe (a : Form)
  /-- A form any number of times. -/
  | many (a : Form)

namespace Form

instance : AndThen Form := ⟨fun a b => andThen a (b ())⟩

instance : OrElse Form := ⟨fun a b => orElse a (b ())⟩

/-- A token of this kind. -/
def ofKind (kind : Kind) : Form := token fun t => t.kind == kind

/-- This mark. -/
def mark (text : String) : Form := ofKind (.mark text)

/-- A token with this spelling. -/
def spelled (text : String) : Form := token fun t => t.text == text

/-- A token that can end the name of a type. -/
def nameEnd : Form := token fun t => t.kind.isName

/-- A literal. -/
def literal : Form := token fun t => t.kind.isLiteral

/-- A keyword that is a type by itself. -/
def baseType : Form := token fun t => t.kind.isBaseType

/-- A key of a keyword parameter or of a record. -/
def key : Form := token fun t => t.kind.isKey

end Form

/-! ### Rules -/

open Form in
/-- The rule of a nonterminal. -/
def Nonterminal.rule : Nonterminal → Form
  | type => phrase intersection >> many (mark "|" >> phrase intersection)
  | intersection => phrase optional >> many (mark "&" >> phrase optional)
  | optional => phrase simple >> maybe (mark "?")
  | simple =>
    (mark "(" >> phrase type >> mark ")") <|>
    (mark "^" >> maybe (phrase parameters) >> maybe (phrase selfBinding) >>
      maybe (phrase block) >> mark "->" >> phrase optional) <|>
    (mark "[" >> mark "]") <|>
    (mark "[" >> phrase types >> mark "]") <|>
    (mark "\x7b" >> mark "\x7d") <|>
    (mark "\x7b" >> phrase field >> many (mark "," >> phrase field) >>
      maybe (mark ",") >> mark "\x7d") <|>
    (ofKind (.keyword "singleton") >> mark "(" >> phrase name >> mark ")") <|>
    baseType <|>
    literal <|>
    (phrase name >> maybe (mark "[" >> phrase types >> mark "]"))
  | types => phrase type >> many (mark "," >> phrase type) >> maybe (mark ",")
  | name => maybe (mark "::") >> many (ofKind .upperName >> mark "::") >> nameEnd
  | field =>
    (maybe (mark "?") >> key >> phrase type) <|>
    (maybe (mark "?") >> (literal <|> nameEnd) >> mark "=>" >> phrase type)
  | parameters =>
    (mark "(" >> mark ")") <|>
    (mark "(" >> mark "?" >> mark ")") <|>
    (mark "(" >> ((phrase positional >> many (mark "," >> phrase positional) >>
        many (mark "," >> phrase keyed)) <|>
      (phrase keyed >> many (mark "," >> phrase keyed))) >> maybe (mark ",") >> mark ")")
  | positional =>
    maybe (mark "?" <|> mark "*") >> phrase type >> maybe (ofKind .lowerName)
  | keyed =>
    ((maybe (mark "?") >> key) <|> mark "**") >> phrase type >>
      maybe (ofKind .lowerName)
  | selfBinding => mark "[" >> spelled "self:" >> phrase type >> mark "]"
  | block =>
    maybe (mark "?") >> mark "\x7b" >> maybe (phrase parameters) >>
      maybe (phrase selfBinding) >> mark "->" >> phrase optional >> mark "\x7d"
  | blockSignature =>
    maybe (mark "?") >> maybe (phrase parameters) >>
      maybe (phrase selfBinding) >> mark "->" >> phrase optional
  | methodType =>
    ((phrase typeParameters >> maybe (phrase parameters) >>
        maybe (phrase selfBinding)) <|>
      maybe (phrase parameters >> maybe (phrase selfBinding))) >>
      maybe (phrase block) >> mark "->" >> phrase optional
  | typeParameters =>
    mark "[" >> phrase typeParameter >> many (mark "," >> phrase typeParameter) >>
      maybe (mark ",") >> mark "]"
  | typeParameter =>
    maybe (ofKind (.keyword "unchecked")) >> ofKind .upperName >>
      maybe (mark "<" >> phrase type) >> maybe (mark "=" >> phrase type)

/-! ### Derivations -/

/-- A list of tokens has a form. -/
inductive Derives : Form → List Token → Prop
  | token {fits : Token → Bool} {t : Token} : fits t = true → Derives (.token fits) [t]
  | phrase {n : Nonterminal} {ts : List Token} : Derives n.rule ts → Derives (.phrase n) ts
  | andThen {a b : Form} {us vs : List Token} :
      Derives a us → Derives b vs → Derives (.andThen a b) (us ++ vs)
  | left {a b : Form} {ts : List Token} : Derives a ts → Derives (.orElse a b) ts
  | right {a b : Form} {ts : List Token} : Derives b ts → Derives (.orElse a b) ts
  | none {a : Form} : Derives (.maybe a) []
  | some {a : Form} {ts : List Token} : Derives a ts → Derives (.maybe a) ts
  | stop {a : Form} : Derives (.many a) []
  | more {a : Form} {us vs : List Token} :
      Derives a us → Derives (.many a) vs → Derives (.many a) (us ++ vs)

section Inversion

variable {a b : Form} {ts : List Token}

@[simp]
theorem derives_token {fits : Token → Bool} :
    Derives (.token fits) ts ↔ ∃ t, ts = [t] ∧ fits t = true := by
  constructor
  · rintro ⟨h⟩
    exact ⟨_, rfl, h⟩
  · rintro ⟨t, rfl, h⟩
    exact .token h

/-- `ofKind` is derived as one token of this kind. -/
theorem derives_ofKind {kind : Kind} :
    Derives (.ofKind kind) ts ↔ ∃ t, ts = [t] ∧ t.kind = kind := by
  simp [Form.ofKind]

theorem derives_mark {text : String} :
    Derives (.mark text) ts ↔ ∃ t, ts = [t] ∧ t.kind = .mark text := derives_ofKind

/-- A nonterminal is derived by its rule (`Derives`). -/
theorem derives_phrase {n : Nonterminal} : Derives (.phrase n) ts ↔ Derives n.rule ts := by
  constructor
  · rintro ⟨h⟩
    assumption
  · exact .phrase

/-- Two forms are derived one after the other. -/
@[simp]
theorem derives_andThen :
    Derives (a >> b) ts ↔ ∃ us vs, ts = us ++ vs ∧ Derives a us ∧ Derives b vs := by
  constructor
  · rintro ⟨ha, hb⟩
    exact ⟨_, _, rfl, ‹_›, ‹_›⟩
  · rintro ⟨us, vs, rfl, ha, hb⟩
    exact .andThen ha hb

@[simp]
theorem derives_orElse : Derives (a <|> b) ts ↔ Derives a ts ∨ Derives b ts := by
  constructor
  · rintro (h | h)
    · exact .inl ‹_›
    · exact .inr ‹_›
  · rintro (h | h)
    · exact .left h
    · exact .right h

@[simp]
theorem derives_maybe : Derives (.maybe a) ts ↔ ts = [] ∨ Derives a ts := by
  constructor
  · rintro (_ | h)
    · exact .inl rfl
    · exact .inr ‹_›
  · rintro (rfl | h)
    · exact .none
    · exact .some h

/-- Lists that have a form any number of times are put together from lists that have it. -/
theorem derives_many :
    Derives (.many a) ts ↔ ∃ parts : List (List Token), ts = parts.flatten ∧
      ∀ part ∈ parts, Derives a part := by
  constructor
  · intro h
    generalize hf : Form.many a = f at h
    induction h with
    | stop => exact ⟨[], rfl, by simp⟩
    | @more _ us vs hu _ _ ih =>
      cases hf
      obtain ⟨parts, rfl, hparts⟩ := ih rfl
      exact ⟨us :: parts, by simp, by simpa using ⟨hu, hparts⟩⟩
    | _ => cases hf
  · rintro ⟨parts, rfl, hparts⟩
    induction parts with
    | nil => exact .stop
    | cons part parts ih =>
      rw [List.flatten_cons]
      exact .more (hparts part List.mem_cons_self)
        (ih fun p hp => hparts p (List.mem_cons_of_mem _ hp))

end Inversion

/-! ### Phrases at the front of some tokens -/

/-- Tokens of a form stand at the front, and leave a rest. -/
def Cut (a : Form) (ts rest : List Token) : Prop := ∃ us, ts = us ++ rest ∧ Derives a us

namespace Cut

variable {a b : Form} {ts mid rest : List Token}

theorem token {fits : Token → Bool} {t : Token} (h : fits t = true) :
    Cut (.token fits) (t :: rest) rest := ⟨[t], rfl, .token h⟩

theorem ofKind {kind : Kind} {t : Token} (h : t.kind = kind) :
    Cut (.ofKind kind) (t :: rest) rest := token (by simpa using h)

theorem mark {text : String} {t : Token} (h : t.kind = .mark text) :
    Cut (.mark text) (t :: rest) rest := ofKind h

theorem phrase {n : Nonterminal} (h : Cut n.rule ts rest) : Cut (.phrase n) ts rest := by
  obtain ⟨us, hts, hus⟩ := h
  exact ⟨us, hts, .phrase hus⟩

/-- Two forms are cut off one after the other (`Cut`). -/
theorem andThen (ha : Cut a ts mid) (hb : Cut b mid rest) : Cut (a >> b) ts rest := by
  obtain ⟨us, rfl, hus⟩ := ha
  obtain ⟨vs, rfl, hvs⟩ := hb
  exact ⟨us ++ vs, (List.append_assoc ..).symm, .andThen hus hvs⟩

theorem left (h : Cut a ts rest) : Cut (a <|> b) ts rest := by
  obtain ⟨us, hts, hus⟩ := h
  exact ⟨us, hts, .left hus⟩

theorem right (h : Cut b ts rest) : Cut (a <|> b) ts rest := by
  obtain ⟨us, hts, hus⟩ := h
  exact ⟨us, hts, .right hus⟩

theorem none : Cut (.maybe a) ts ts := ⟨[], rfl, .none⟩

theorem some (h : Cut a ts rest) : Cut (.maybe a) ts rest := by
  obtain ⟨us, hts, hus⟩ := h
  exact ⟨us, hts, .some hus⟩

theorem stop : Cut (.many a) ts ts := ⟨[], rfl, .stop⟩

theorem more (ha : Cut a ts mid) (hm : Cut (.many a) mid rest) : Cut (.many a) ts rest := by
  obtain ⟨us, rfl, hus⟩ := ha
  obtain ⟨vs, rfl, hvs⟩ := hm
  exact ⟨us ++ vs, (List.append_assoc ..).symm, .more hus hvs⟩

/-- What is left when a form is cut off is no longer than the whole. -/
theorem length_le (h : Cut a ts rest) : rest.length ≤ ts.length := by
  obtain ⟨us, rfl, -⟩ := h
  simp

/-- Between two forms that are cut off together lies a place where the first one ends. -/
theorem exists_of_andThen (h : Cut (a >> b) ts rest) : ∃ mid, Cut a ts mid ∧ Cut b mid rest := by
  obtain ⟨_, rfl, h⟩ := h
  obtain ⟨us, vs, rfl, hus, hvs⟩ := derives_andThen.1 h
  exact ⟨vs ++ rest, ⟨us, List.append_assoc .., hus⟩, ⟨vs, rfl, hvs⟩⟩

/-- A form that may be left out is there, or nothing is cut off. -/
theorem cases_of_maybe (h : Cut (.maybe a) ts rest) : ts = rest ∨ Cut a ts rest := by
  obtain ⟨us, rfl, h⟩ := h
  rcases derives_maybe.1 h with rfl | h
  · exact .inl rfl
  · exact .inr ⟨us, rfl, h⟩

/-- A repetition is at its end, or goes on behind a first item. -/
theorem cases_of_many (h : Cut (.many a) ts rest) :
    ts = rest ∨ ∃ mid, Cut a ts mid ∧ Cut (.many a) mid rest := by
  obtain ⟨_, rfl, h⟩ := h
  obtain ⟨parts, rfl, hparts⟩ := derives_many.1 h
  cases parts with
  | nil => exact .inl rfl
  | cons part parts =>
    obtain ⟨hpart, hparts⟩ := List.forall_mem_cons.1 hparts
    refine .inr ⟨parts.flatten ++ rest, ⟨part, by simp, hpart⟩, ⟨parts.flatten, rfl, ?_⟩⟩
    exact derives_many.2 ⟨parts, rfl, hparts⟩

/-- Two repetitions of one form are one repetition. -/
theorem many_trans (h₁ : Cut (.many a) ts mid) (h₂ : Cut (.many a) mid rest) :
    Cut (.many a) ts rest := by
  obtain ⟨us, rfl, hus⟩ := h₁
  obtain ⟨vs, rfl, hvs⟩ := h₂
  refine ⟨us ++ vs, (List.append_assoc ..).symm, ?_⟩
  obtain ⟨ps, rfl, hps⟩ := derives_many.1 hus
  obtain ⟨qs, rfl, hqs⟩ := derives_many.1 hvs
  refine derives_many.2 ⟨ps ++ qs, List.flatten_append.symm, fun p hp => ?_⟩
  exact (List.mem_append.1 hp).elim (hps p) (hqs p)

theorem cases_of_orElse (h : Cut (a <|> b) ts rest) : Cut a ts rest ∨ Cut b ts rest := by
  obtain ⟨us, hts, h⟩ := h
  exact (derives_orElse.1 h).imp (fun h => ⟨us, hts, h⟩) fun h => ⟨us, hts, h⟩

end Cut

end TypeNotes.Signature
