import TypeNotes.Config.Value

/-!
# What plain texts of YAML stand for

A text that is not quoted may stand for nothing, a truth value, a date or a number. Numbers may have
underscores between their digits, and may be written in several bases, also in sixties with colons.
Everything else stands for itself.
-/

namespace TypeNotes.Yaml

/-! ### Numbers -/

/-- The sign in front of a number, and what follows it. -/
def splitSign (s : List Char) : Bool × List Char :=
  match s with
  | '-' :: rest => (true, rest)
  | '+' :: rest => (false, rest)
  | s => (false, s)

/-- The value of digits in a base, without the underscores between them. -/
def digitsValue (base : Nat) (s : List Char) : Nat :=
  (s.filter (· != '_')).foldl (fun n c =>
    n * base + (if c.isDigit then c.toNat - 48 else c.toLower.toNat - 87)) 0

/-- Whether a text is made of characters of a class and underscores, and is not empty. -/
def areDigits (p : Char → Bool) (s : List Char) : Bool :=
  !s.isEmpty && s.all fun c => p c || c == '_'

/-- Whether a text is a digit of a class, followed by digits and underscores. -/
def isNumeral (first : Char → Bool) (s : List Char) : Bool :=
  match s with
  | [] => false
  | c :: rest => first c && rest.all fun c => c.isDigit || c == '_'

/-- Whether a text is a number below sixty. -/
def isSixtieth (s : List Char) : Bool :=
  match s with
  | [c] => c.isDigit
  | [c, d] => '0' ≤ c && c ≤ '5' && d.isDigit
  | _ => false

/-- The parts of a text between colons. -/
def splitColons (s : List Char) : List (List Char) :=
  match s with
  | [] => [[]]
  | c :: rest =>
    if c == ':' then [] :: splitColons rest
    else match splitColons rest with
      | [] => [[c]]
      | part :: more => (c :: part) :: more

/-- The value of numerals in sixties. -/
def sixtiesValue (parts : List (List Char)) : Nat :=
  parts.foldl (fun n part => n * 60 + digitsValue 10 part) 0

/-- The magnitude of a whole number. -/
def wholeMagnitude? (s : List Char) : Option Nat :=
  match s with
  | '0' :: 'b' :: rest =>
    if areDigits (fun c => c == '0' || c == '1') rest then some (digitsValue 2 rest) else none
  | '0' :: 'x' :: rest =>
    if areDigits (fun c => c.isDigit || ('a' ≤ c && c ≤ 'f') || ('A' ≤ c && c ≤ 'F')) rest then
      some (digitsValue 16 rest)
    else none
  | ['0'] => some 0
  | '0' :: rest =>
    if areDigits (fun c => '0' ≤ c && c ≤ '7') rest then some (digitsValue 8 rest) else none
  | s =>
    match splitColons s with
    | first :: more =>
      if isNumeral (fun c => '1' ≤ c && c ≤ '9') first && more.all isSixtieth then
        some (sixtiesValue (first :: more))
      else none
    | [] => none

/-- The whole number that a text stands for. -/
def whole? (s : List Char) : Option Int :=
  let (negative, s) := splitSign s
  (wholeMagnitude? s).map fun n => if negative then -(n : Int) else n

/-- The exponent of a fraction, with its sign. -/
def exponent? (s : List Char) : Option Int :=
  match s with
  | [] => some 0
  | e :: sign :: digits =>
    if (e == 'e' || e == 'E') && (sign == '-' || sign == '+') && !digits.isEmpty &&
        digits.all Char.isDigit then
      let n : Int := digitsValue 10 digits
      some (if sign == '-' then -n else n)
    else none
  | _ => none

/-- The fraction with digits before and after the point. -/
def fraction (negative : Bool) (whole : Nat) (digits : List Char) (exponent : Int) : Binary64 :=
  let digits := digits.filter (· != '_')
  .ofDecimal negative (whole * Nat.pow 10 digits.length + digitsValue 10 digits)
    (exponent - digits.length)

/-- The fraction that a text stands for. A point in front of all digits has no sign before it. -/
def fraction? (s : List Char) : Option Binary64 :=
  let (negative, body) := splitSign s
  let before := body.takeWhile (· != '.')
  match body.dropWhile (· != '.') with
  | [] => none
  | _ :: after =>
    let isPart := fun c => c.isDigit || c == '_'
    let digits := after.takeWhile isPart
    let tail := after.dropWhile isPart
    if before.isEmpty then
      if ["inf", "Inf", "INF"].any fun w => after == w.toList then some (.infinite negative)
      else if body.length != s.length then none
      else if ["nan", "NaN", "NAN"].any fun w => after == w.toList then some .nan
      else if digits.head?.any Char.isDigit then
        (exponent? tail).map (fraction negative 0 digits)
      else none
    else match splitColons before with
      | [first] =>
        if isNumeral Char.isDigit first then
          (exponent? tail).map (fraction negative (digitsValue 10 first) digits)
        else none
      | first :: more =>
        if isNumeral Char.isDigit first && more.all isSixtieth && tail.isEmpty then
          some (fraction negative (sixtiesValue (first :: more)) digits 0)
        else none
      | [] => none

/-! ### Dates -/

/-- Whether a text starts with a time of day: an hour of one or two digits, minutes and seconds. -/
def startsWithTime (s : List Char) : Bool :=
  let hour := s.takeWhile Char.isDigit
  (hour.length == 1 || hour.length == 2) &&
    match s.drop hour.length with
    | ':' :: a :: b :: ':' :: c :: d :: _ => [a, b, c, d].all Char.isDigit
    | _ => false

/-- How many days a month has. -/
def daysIn (year month : Nat) : Nat :=
  if month == 2 then
    if year % 4 == 0 && (year % 100 != 0 || year % 400 == 0) then 29 else 28
  else if [4, 6, 9, 11].contains month then 30 else 31

/-- The value of a date, if there is such a day. -/
def dateOf? (year month day : Nat) (text : String) : Option Value :=
  if 1 ≤ year && 1 ≤ month && month ≤ 12 && 1 ≤ day && day ≤ daysIn year month then
    some (.other ⟨"datetime.date", text, s!"datetime.date({year}, {month}, {day})", false, true⟩)
  else none

/-- The value of a text that is a date or starts like a date with a time of day, which is refused;
nothing for all other texts. -/
def timestamp? (s : List Char) : Option (Option Value) :=
  let year := s.takeWhile Char.isDigit
  match s.drop year.length with
  | '-' :: afterYear =>
    let month := afterYear.takeWhile Char.isDigit
    match afterYear.drop month.length with
    | '-' :: afterMonth =>
      let day := afterMonth.takeWhile Char.isDigit
      let rest := afterMonth.drop day.length
      let time := if rest.head?.any fun c => c == 't' || c == 'T' then rest.drop 1
        else rest.dropWhile fun c => c == ' ' || c == '\t'
      if year.length != 4 then none
      else if month.length == 2 && day.length == 2 && rest.isEmpty then
        some (dateOf? (digitsValue 10 year) (digitsValue 10 month) (digitsValue 10 day)
          (String.ofList s))
      else if [1, 2].contains month.length && [1, 2].contains day.length &&
          time.length < rest.length && startsWithTime time then some none
      else none
    | _ => none
  | _ => none

/-! ### All plain texts -/

/-- The words for truth. -/
def trueWords : List String := ["yes", "Yes", "YES", "true", "True", "TRUE", "on", "On", "ON"]

/-- The words for falsehood. -/
def falseWords : List String := ["no", "No", "NO", "false", "False", "FALSE", "off", "Off", "OFF"]

/-- The words for nothing. -/
def nullWords : List String := ["", "~", "null", "Null", "NULL"]

/-- What a plain text stands for. The sign for a default value, the sign for merged mappings and
times of day are refused. -/
def resolve? (text : List Char) : Option Value :=
  let s := String.ofList text
  if s == "=" || s == "<<" then none
  else if trueWords.contains s then some (.bool true)
  else if falseWords.contains s then some (.bool false)
  else if nullWords.contains s then some .null
  else match timestamp? text with
    | some date => date
    | none =>
      match fraction? text with
      | some x => some (.float x)
      | none =>
        match whole? text with
        | some n => some (.int n)
        | none => some (.str s)

end TypeNotes.Yaml
