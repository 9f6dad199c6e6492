import TypeNotes.Decimal.Binary64
import TypeNotes.Text.Quoted

/-!
# Configuration values

A configuration is read as a value: nothing, a truth value, a number, a text, a list, or a mapping.
The fields of a mapping are in the order in which their keys were first given. Messages show values
and the names of their types. Values of all other types, which no configuration has a use for, are
kept as what can be asked of them (`OtherValue`).
-/

namespace TypeNotes

/-- A value of another type, such as a date, a sequence of bytes, a set, or a list that is an item
of itself. -/
structure OtherValue where
  /-- The name of its type. -/
  typeName : String
  /-- Its text by itself. -/
  text : String
  /-- Its text inside of another value. -/
  quoted : String
  /-- Whether it counts as absent. -/
  isEmpty : Bool
  /-- Whether it can be a key, and be looked up among keys. -/
  isKey : Bool
  deriving DecidableEq, Repr

/-- A value of a configuration. -/
inductive Value
  | null
  | bool (b : Bool)
  | int (n : Int)
  | float (x : Binary64)
  | str (s : String)
  | list (items : List Value)
  | map (fields : List (Value × Value))
  | other (v : OtherValue)

namespace Value

instance : Inhabited Value := ⟨.null⟩

/-! ### The text of numbers -/

/-- A fraction is written positionally if its first digit stands from the fourth place after the
point to the sixteenth before it; otherwise with an exponent of at least two digits. -/
def textOfDecimal (d : Binary64.Decimal) : String :=
  let digits := Nat.toDigits 10 d.digits
  let count := digits.length
  let point := d.exponent + count
  if -4 < point && point ≤ 16 then
    let before := point.toNat
    let whole := (digits ++ List.replicate (before - count) '0').take before
    let fraction := List.replicate (-point).toNat '0' ++ digits.drop before
    String.ofList ((if whole.isEmpty then ['0'] else whole) ++
      '.' :: (if fraction.isEmpty then ['0'] else fraction))
  else
    let exponent := point - 1
    let size := Nat.toDigits 10 exponent.natAbs
    let mantissa := digits.take 1 ++ if count == 1 then [] else '.' :: digits.drop 1
    let padding := List.replicate (2 - size.length) '0'
    String.ofList (mantissa ++ 'e' :: (if exponent < 0 then '-' else '+') :: padding ++ size)

/-- The text of a fraction. -/
def textOfFloat : Binary64 → String
  | .nan => "nan"
  | .infinite negative => if negative then "-inf" else "inf"
  | .finite negative significand exponent =>
    let magnitude :=
      if significand == 0 then "0.0" else textOfDecimal (Binary64.shortest significand exponent)
    if negative then "-" ++ magnitude else magnitude

/-! ### The text of values -/

mutual

/-- The text of a value inside of another one, where texts are quoted. -/
def quoted : Value → String
  | null => "None"
  | bool b => if b then "True" else "False"
  | int n => toString n
  | float x => textOfFloat x
  | str s => Text.quote s
  | other v => v.quoted
  | list items => "[" ++ String.intercalate ", " (quotedItems items) ++ "]"
  | map fields => "\x7b" ++ String.intercalate ", " (quotedFields fields) ++ "\x7d"

/-- The texts of items. -/
def quotedItems : List Value → List String
  | [] => []
  | v :: rest => v.quoted :: quotedItems rest

/-- The texts of fields. -/
def quotedFields : List (Value × Value) → List String
  | [] => []
  | (k, v) :: rest => (k.quoted ++ ": " ++ v.quoted) :: quotedFields rest

end

/-- The text of a value by itself. -/
def text : Value → String
  | str s => s
  | other v => v.text
  | v => v.quoted

/-- The name of the type of a value. -/
def typeName : Value → String
  | null => "NoneType"
  | bool _ => "bool"
  | int _ => "int"
  | float _ => "float"
  | str _ => "str"
  | list _ => "list"
  | map _ => "dict"
  | other v => v.typeName

/-- The type of a value as messages show it. -/
def typeText (v : Value) : String := "<class '" ++ v.typeName ++ "'>"

/-! ### Tests and fields -/

/-- Whether a value counts as absent: nothing, false, zero, and what is empty. -/
def isEmpty : Value → Bool
  | null | bool false | list [] | map [] => true
  | int n => n == 0
  | float (.finite _ significand _) => significand == 0
  | str s => s == ""
  | other v => v.isEmpty
  | _ => false

/-- Whether a value can be a key: lists and mappings cannot. -/
def isKey : Value → Bool
  | list _ | map _ => false
  | other v => v.isKey
  | _ => true

/-- The whole number that a key is, with truth values counting as one and zero. -/
def wholeNumber? : Value → Option Int
  | bool b => some (if b then 1 else 0)
  | int n => some n
  | float (.finite negative significand exponent) =>
    let magnitude := significand * Nat.pow 2 exponent.toNat
    let divisor := Nat.pow 2 (-exponent).toNat
    if magnitude % divisor == 0 then
      let whole : Int := (magnitude / divisor : Nat)
      some (if negative then -whole else whole)
    else none
  | _ => none

/-- Whether two keys are the same; numbers are compared by their values. -/
def sameKey (a b : Value) : Bool :=
  match a.wholeNumber?, b.wholeNumber? with
  | some x, some y => x == y
  | none, none =>
    match a, b with
    | null, null => true
    | str s, str t => s == t
    | float x, float y => x == y && x != Binary64.nan
    | other v, other w => v == w
    | _, _ => false
  | _, _ => false

/-- Adds a field. A key that is there already keeps its place and takes the new value. -/
def insert (fields : List (Value × Value)) (key value : Value) : List (Value × Value) :=
  match fields with
  | [] => [(key, value)]
  | (k, v) :: rest =>
    if k.sameKey key then (k, value) :: rest else (k, v) :: insert rest key value

/-- The mapping with these fields, of which a later one replaces an earlier one. -/
def ofFields (fields : List (Value × Value)) : Value :=
  map (fields.foldl (fun acc (k, v) => insert acc k v) [])

/-- The value of the field whose key is this text. -/
def field? (fields : List (Value × Value)) (key : String) : Option Value :=
  (fields.find? fun (k, _) => match k with
    | str s => s == key
    | _ => false).map (·.2)

end Value

end TypeNotes
