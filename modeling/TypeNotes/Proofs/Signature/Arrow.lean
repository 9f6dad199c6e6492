import TypeNotes.Proofs.Signature.Derivation
import TypeNotes.Proofs.Signature.Material

/-!
# Arrows outside of brackets

Types and method types share almost all of their syntax, but no list of tokens is both. What tells
them apart is the arrow of a method type. A type has arrows as well, but outside of brackets each of
them belongs to the caret of a procedure type.

A `Scale` goes through a list of tokens, keeps the depth of brackets, and outside of all brackets
counts arrows up and carets down. Every nonterminal leaves the depth as it was and adds a number of
its own (`Nonterminal.arrows`): one for method types and block signatures, none for all others.
`Form.Weighs` is the analysis of the rules that shows this, one rule at a time.
-/

namespace TypeNotes.Signature

/-! ### Scales -/

/-- A depth of brackets, and the surplus of arrows over carets outside of brackets. -/
@[ext]
structure Scale where
  depth : Nat
  surplus : Int
  deriving DecidableEq, Repr

/-- Opening brackets. -/
def Kind.opens (kind : Kind) : Bool := kind ∈ [.mark "(", .mark "[", .mark "\x7b"]

/-- Closing brackets. -/
def Kind.closes (kind : Kind) : Bool := kind ∈ [.mark ")", .mark "]", .mark "\x7d"]

/-- What a token of this kind adds outside of brackets. -/
def Kind.arrows (kind : Kind) : Int :=
  if kind = .mark "->" then 1 else if kind = .mark "^" then -1 else 0

/-- Puts a token of this kind on the scale. -/
def Scale.add (c : Scale) (kind : Kind) : Scale :=
  if kind.opens then ⟨c.depth + 1, c.surplus⟩
  else if kind.closes then ⟨c.depth - 1, c.surplus⟩
  else if c.depth = 0 then ⟨0, c.surplus + kind.arrows⟩
  else c

/-- Puts tokens on the scale, one after another. -/
def Scale.addAll (c : Scale) (ts : List Token) : Scale := ts.foldl (fun c t => c.add t.kind) c

theorem Scale.addAll_append (c : Scale) (us vs : List Token) :
    c.addAll (us ++ vs) = (c.addAll us).addAll vs := List.foldl_append

/-- What a nonterminal adds outside of brackets. -/
def Nonterminal.arrows : Nonterminal → Int
  | methodType | blockSignature => 1
  | _ => 0

/-- The scale after a nonterminal. -/
def Scale.addPhrase (c : Scale) (n : Nonterminal) : Scale :=
  if c.depth = 0 then ⟨0, c.surplus + n.arrows⟩ else c

/-! ### Rules on the scale -/

/-- From this scale on, every list of tokens that has the form leads to a scale with the property,
if every nonterminal adds what it is said to add. -/
def Form.Weighs : Form → Scale → (Scale → Prop) → Prop
  | token fits, c, post => ∀ t : Token, t.Spelled → fits t = true → post (c.add t.kind)
  | phrase n, c, post => post (c.addPhrase n)
  | andThen a b, c, post => a.Weighs c fun d => b.Weighs d post
  | orElse a b, c, post => a.Weighs c post ∧ b.Weighs c post
  | maybe a, c, post => post c ∧ a.Weighs c post
  | many a, c, post => post c ∧ a.Weighs c (· = c)

section Forms

open Form

variable {c : Scale} {post : Scale → Prop}

@[simp]
theorem weighs_phrase (n : Nonterminal) : (phrase n).Weighs c post ↔ post (c.addPhrase n) := Iff.rfl

@[simp]
theorem weighs_andThen (a b : Form) :
    (a >> b).Weighs c post ↔ a.Weighs c fun d => b.Weighs d post := Iff.rfl

@[simp]
theorem weighs_orElse (a b : Form) :
    (a <|> b).Weighs c post ↔ a.Weighs c post ∧ b.Weighs c post := Iff.rfl

@[simp]
theorem weighs_maybe (a : Form) : (maybe a).Weighs c post ↔ post c ∧ a.Weighs c post := Iff.rfl

@[simp]
theorem weighs_many (a : Form) : (many a).Weighs c post ↔ post c ∧ a.Weighs c (· = c) := Iff.rfl

/-- `Scale.add` counts nothing for a token that is not a mark. -/
theorem Scale.add_of_ne_mark {kind : Kind} (h : ∀ text, kind ≠ .mark text) : c.add kind = c := by
  rcases c with ⟨_ | depth, surplus⟩ <;> simp [Scale.add, Kind.opens, Kind.closes, Kind.arrows, h]

@[simp]
theorem weighs_ofKind (kind : Kind) : (ofKind kind).Weighs c post ↔ post (c.add kind) := by
  constructor
  · intro h
    cases kind with
    | mark text => exact h ⟨.mark text, text, 0, 0⟩ (fun _ h => Kind.mark.inj h) (by simp)
    | _ => exact h ⟨_, "", 0, 0⟩ (fun _ h => by cases h) (beq_self_eq_true _)
  · intro h t _ ht
    rwa [beq_iff_eq.1 ht]

@[simp]
theorem weighs_mark (text : String) : (mark text).Weighs c post ↔ post (c.add (.mark text)) :=
  weighs_ofKind _

/-- A class of tokens that add nothing, one of which is `u`. -/
theorem weighs_token {fits : Token → Bool} (u : Token) (hu : u.Spelled ∧ fits u = true)
    (h : ∀ t : Token, t.Spelled → fits t = true → ∀ c : Scale, c.add t.kind = c) :
    (token fits).Weighs c post ↔ post c := by
  constructor
  · intro hpost
    rw [← h u hu.1 hu.2 c]
    exact hpost u hu.1 hu.2
  · intro hpost t hspelled ht
    rwa [h t hspelled ht c]

@[simp]
theorem weighs_nameEnd : nameEnd.Weighs c post ↔ post c := by
  refine weighs_token ⟨.upperName, "", 0, 0⟩ (by simp [Token.Spelled, Kind.isName]) ?_
  refine fun t _ ht _ => Scale.add_of_ne_mark fun text heq => ?_
  simp [heq, Kind.isName] at ht

@[simp]
theorem weighs_literal : literal.Weighs c post ↔ post c := by
  refine weighs_token ⟨.integer, "", 0, 0⟩ (by simp [Token.Spelled, Kind.isLiteral]) ?_
  refine fun t _ ht _ => Scale.add_of_ne_mark fun text heq => ?_
  simp [heq, Kind.isLiteral] at ht

@[simp]
theorem weighs_baseType : baseType.Weighs c post ↔ post c := by
  refine weighs_token ⟨.keyword "bool", "", 0, 0⟩ ⟨by simp [Token.Spelled], by decide⟩ ?_
  refine fun t _ ht _ => Scale.add_of_ne_mark fun text heq => ?_
  simp [heq, Kind.isBaseType] at ht

@[simp]
theorem weighs_key : key.Weighs c post ↔ post c := by
  refine weighs_token ⟨.lowerKey, "", 0, 0⟩ (by simp [Token.Spelled, Kind.isKey]) ?_
  refine fun t _ ht _ => Scale.add_of_ne_mark fun text heq => ?_
  simp [heq, Kind.isKey] at ht

/-- A token that is spelled so is no bracket, no arrow and no caret. -/
@[simp]
theorem weighs_selfKey : (spelled "self:").Weighs c post ↔ post c := by
  refine weighs_token ⟨.lowerKey, "self:", 0, 0⟩ (by simp [Token.Spelled]) ?_
  intro t hspelled ht c
  have hmark : ∀ text, t.kind = .mark text → text = "self:" := fun text heq =>
    (hspelled text heq).symm.trans (beq_iff_eq.1 ht)
  have hne : ∀ text, text ≠ "self:" → t.kind ≠ .mark text := fun text h heq => h (hmark text heq)
  rcases c with ⟨_ | depth, surplus⟩ <;>
    simp [Scale.add, Kind.opens, Kind.closes, Kind.arrows, hne]

end Forms

/-- Inside of brackets nothing is counted. -/
theorem Nonterminal.weighs_rule_inside (n : Nonterminal) (depth : Nat) (surplus : Int) :
    n.rule.Weighs ⟨depth + 1, surplus⟩ (· = ⟨depth + 1, surplus⟩) := by
  cases n <;> simp [rule, Scale.addPhrase, Scale.add, Kind.opens, Kind.closes]

/-- Outside of brackets the arrow of a procedure type makes up for its caret, and the only other
arrows are those of method types and block signatures. -/
theorem Nonterminal.weighs_rule_outside (n : Nonterminal) (surplus : Int) :
    n.rule.Weighs ⟨0, surplus⟩ (· = ⟨0, surplus + n.arrows⟩) := by
  cases n with
  | simple =>
    have hcaret : (⟨0, surplus⟩ : Scale).add (.mark "^") = ⟨0, surplus - 1⟩ := rfl
    have harrow : (⟨0, surplus - 1⟩ : Scale).add (.mark "->") = ⟨0, surplus⟩ :=
      congrArg (Scale.mk 0) (Int.sub_add_cancel surplus 1)
    simp only [rule, weighs_orElse, weighs_andThen, weighs_maybe, weighs_mark, weighs_phrase,
      Scale.addPhrase, if_true, arrows, Int.add_zero, hcaret, harrow]
    simp [Scale.addPhrase, Scale.add, Kind.opens, Kind.closes, Kind.arrows]
  | methodType | blockSignature =>
    -- One arrow, in front of what is returned.
    simp [rule, Scale.addPhrase, Scale.add, Kind.opens, Kind.closes, Kind.arrows, arrows]
  | block =>
    -- The arrow of a block stands in braces.
    simp [rule, Scale.addPhrase, Scale.add, Kind.opens, Kind.closes, Kind.arrows, arrows]
  | _ => simp [rule, Scale.addPhrase, Scale.add, Kind.opens, Kind.closes, Kind.arrows, arrows]

/-- Every rule adds what `Scale.addPhrase` says of its nonterminal. -/
theorem Nonterminal.weighs_rule (n : Nonterminal) (c : Scale) :
    n.rule.Weighs c (· = c.addPhrase n) := by
  obtain ⟨depth, surplus⟩ := c
  cases depth with
  | zero => exact n.weighs_rule_outside surplus
  | succ depth => exact n.weighs_rule_inside depth surplus

/-! ### Derived tokens on the scale -/

theorem Derives.weighs {a : Form} {ts : List Token} (h : Derives a ts)
    (hspelled : ∀ t ∈ ts, t.Spelled) {c : Scale} {P : Scale → Prop} (ha : a.Weighs c P) :
    P (c.addAll ts) := by
  induction h generalizing c P with
  | token ht => exact ha _ (hspelled _ List.mem_cons_self) ht
  | @phrase n ts _ ih =>
    rw [ih hspelled (n.weighs_rule c)]
    exact ha
  | andThen _ _ ihu ihv =>
    rw [Scale.addAll_append]
    refine ihv (fun t ht => hspelled t (List.mem_append_right _ ht)) ?_
    exact ihu (fun t ht => hspelled t (List.mem_append_left _ ht)) ha
  | left _ ih => exact ih hspelled ha.1
  | right _ ih => exact ih hspelled ha.2
  | none => exact ha.1
  | some _ ih => exact ih hspelled ha.2
  | stop => exact ha.1
  | more _ _ ihu ihv =>
    rw [Scale.addAll_append, ihu (fun t ht => hspelled t (List.mem_append_left _ ht)) ha.2]
    exact ihv (fun t ht => hspelled t (List.mem_append_right _ ht)) ha

/-- `Scale.addAll` of the tokens of a nonterminal is what `Scale.addPhrase` says of it. -/
theorem Derives.addAll {n : Nonterminal} {ts : List Token} (h : Derives (.phrase n) ts)
    (hspelled : ∀ t ∈ ts, t.Spelled) (c : Scale) : c.addAll ts = c.addPhrase n :=
  h.weighs (P := (· = c.addPhrase n)) hspelled rfl

/-- No tokens are both a type and a method type. -/
theorem not_derives_type_and_methodType {ts : List Token} (hspelled : ∀ t ∈ ts, t.Spelled)
    (htype : Derives (.phrase .type) ts) (hmethod : Derives (.phrase .methodType) ts) : False := by
  have hsurplus := (htype.addAll hspelled ⟨0, 0⟩).symm.trans (hmethod.addAll hspelled ⟨0, 0⟩)
  exact absurd hsurplus (by decide)

end TypeNotes.Signature
