/-!
# Binary floating point and its shortest decimals

Numbers with a fraction are kept in binary, with 53 significant bits, as exact integers. A decimal
is rounded to the nearest such number, and to the even one of two that are equally near
(`Binary64.ofDecimal`). In the other direction a number is written with the fewest digits that are
rounded to it, and of several such decimals with the nearest (`Binary64.shortest`). All comparisons
are between natural numbers.
-/

namespace TypeNotes

/-- A binary floating-point number. The magnitude of a finite one is its significand times two to
the power of its exponent. -/
inductive Binary64
  | finite (negative : Bool) (significand : Nat) (exponent : Int)
  | infinite (negative : Bool)
  | nan
  deriving DecidableEq, Repr

namespace Binary64

/-! ### Rounding a decimal -/

/-- The least exponent of a finite number. -/
def minExponent : Int := -1074

/-- The greatest exponent of a finite number. -/
def maxExponent : Int := 971

/-- A quotient rounded to the nearest natural number, and to the even one of two. -/
def roundDiv (num den : Nat) : Nat :=
  let quotient := num / den
  let twice := 2 * (num % den)
  if den < twice || (twice == den && quotient % 2 == 1) then quotient + 1 else quotient

/-- A quotient divided by a power of two, as a quotient. -/
def scale (num den : Nat) (exponent : Int) : Nat × Nat :=
  (num * Nat.pow 2 (-exponent).toNat, den * Nat.pow 2 exponent.toNat)

/-- The number nearest to a positive quotient. -/
def ofQuotient (negative : Bool) (num den : Nat) : Binary64 :=
  let guess := max ((num.log2 : Int) - den.log2 - 53) minExponent
  let (n, d) := scale num den guess
  let exponent := if n / d < Nat.pow 2 53 then guess else guess + 1
  let (n, d) := scale num den exponent
  let significand := roundDiv n d
  let (significand, exponent) :=
    if significand == Nat.pow 2 53 then (Nat.pow 2 52, exponent + 1) else (significand, exponent)
  if maxExponent < exponent then .infinite negative else .finite negative significand exponent

/-- The number nearest to `digits * 10 ^ exponent`. Decimals far outside of the range are settled by
their size alone. -/
def ofDecimal (negative : Bool) (digits : Nat) (exponent : Int) : Binary64 :=
  let size := exponent + (Nat.toDigits 10 digits).length
  if digits == 0 || size < -400 then .finite negative 0 minExponent
  else if 400 < size then .infinite negative
  else ofQuotient negative (digits * Nat.pow 10 exponent.toNat) (Nat.pow 10 (-exponent).toNat)

/-! ### The shortest decimal -/

/-- A natural number times a power of ten. -/
structure Decimal where
  digits : Nat
  exponent : Int
  deriving DecidableEq, Repr

/-- Compares a decimal with a natural number times a power of two. -/
def Decimal.compareBinary (d : Decimal) (n : Nat) (exponent : Int) : Ordering :=
  compare (d.digits * Nat.pow 10 d.exponent.toNat * Nat.pow 2 (-exponent).toNat)
    (n * Nat.pow 2 exponent.toNat * Nat.pow 10 (-d.exponent).toNat)

/-- Whether a decimal is rounded to the positive number `m * 2 ^ q`: it lies between the middles to
the two neighbours, or on one of them if `m` is even. -/
def readsBack (m : Nat) (q : Int) (d : Decimal) : Bool :=
  let below := if m == Nat.pow 2 52 && minExponent < q then 4 * m - 1 else 4 * m - 2
  let low := d.compareBinary below (q - 2)
  let high := d.compareBinary (4 * m + 2) (q - 2)
  let even := m % 2 == 0
  (low == .gt || (even && low == .eq)) && (high == .lt || (even && high == .eq))

/-- The power of ten above a positive quotient, or the power it is equal to. -/
def magnitude (num den : Nat) : Int :=
  if den ≤ num then (Nat.toDigits 10 (num / den)).length
  else 1 - (Nat.toDigits 10 (den / num)).length

/-- The nearest decimal with a given exponent that is rounded to `m * 2 ^ q`. -/
def onGrid? (m : Nat) (q exponent : Int) : Option Decimal :=
  let num := m * Nat.pow 2 q.toNat * Nat.pow 10 (-exponent).toNat
  let den := Nat.pow 2 (-q).toNat * Nat.pow 10 exponent.toNat
  let low : Decimal := ⟨num / den, exponent⟩
  let high : Decimal := ⟨num / den + 1, exponent⟩
  match readsBack m q low, readsBack m q high with
  | true, true => if roundDiv num den == low.digits then some low else some high
  | true, false => some low
  | false, true => some high
  | false, false => none

/-- Leaves the zeros at the end of a decimal out, as many as `fuel` allows. -/
def Decimal.stripZeros : Nat → Decimal → Decimal
  | 0, d => d
  | fuel + 1, d =>
    if d.digits != 0 && d.digits % 10 == 0 then stripZeros fuel ⟨d.digits / 10, d.exponent + 1⟩
    else d

/-- The decimal with the fewest digits that is rounded to the positive number `m * 2 ^ q`; seventeen
digits always suffice. -/
def shortest (m : Nat) (q : Int) : Decimal :=
  let size := magnitude (m * Nat.pow 2 q.toNat) (Nat.pow 2 (-q).toNat)
  let found := (List.range 17).findSome? fun (n : Nat) => onGrid? m q (size - (n + 1))
  Decimal.stripZeros 20 (found.getD ⟨m * Nat.pow 2 q.toNat, 0⟩)

end Binary64

end TypeNotes
