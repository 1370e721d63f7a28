/-
Numbers of double precision: a natural number below `2 ^ 53` times a power of
two, with a sign, besides the infinities and the value that is no number.

`Double.ofDecimal` reads a decimal number as the nearest of them, and of two
that are equally near as the one whose mantissa is even. All steps are exact
until the one quotient that is rounded.
-/
namespace ExprLang

/-- A number of double precision. -/
inductive Double where
  /-- The mantissa times two to the power of the exponent. -/
  | finite (negative : Bool) (mantissa : Nat) (exponent : Int)
  | infinite (negative : Bool)
  | nan
deriving Repr, DecidableEq

namespace Double

/-- The least exponent, which the numbers nearest to zero have. -/
def leastExponent : Int := -1074

/-- The greatest exponent. -/
def greatestExponent : Int := 971

/-- The least mantissa of a number whose exponent is not the least. -/
def leastMantissa : Nat := Nat.pow 2 52

/-- A zero with a sign. -/
def zero (negative : Bool) : Double := .finite negative 0 leastExponent

/-- Whether a number is a zero. -/
def isZero : Double → Bool
  | .finite _ mantissa _ => mantissa = 0
  | _ => false

/-- A quotient rounded to the nearest natural number, and to the even one of
two that are equally near. -/
def roundedQuotient (num den : Nat) : Nat :=
  let rest := 2 * (num % den)
  if rest < den ∨ (rest = den ∧ num / den % 2 = 0) then num / den else num / den + 1

/-- The least exponent at which a quotient takes no more than 53 binary
digits. The binary logarithms give it up to one. -/
def exponentFor (num den : Nat) : Int :=
  let e := max leastExponent ((num.log2 : Int) - den.log2 - 53)
  if num * Nat.pow 2 (-e).toNat < 2 * leastMantissa * (den * Nat.pow 2 e.toNat) then e
  else e + 1

/-- The number nearest to a quotient. -/
def ofQuotient (negative : Bool) (num den : Nat) : Double :=
  let e := exponentFor num den
  let m := roundedQuotient (num * Nat.pow 2 (-e).toNat) (den * Nat.pow 2 e.toNat)
  let (m, e) := if m = 2 * leastMantissa then (leastMantissa, e + 1) else (m, e)
  if greatestExponent < e then .infinite negative else .finite negative m e

/-- The number nearest to `digits` times ten to the power of `exponent`. What
is far too great or far too small is told by its size in decimal digits. -/
def ofDecimal (negative : Bool) (digits : Nat) (exponent : Int) : Double :=
  let size := (Nat.toDigits 10 digits).length + exponent
  if digits = 0 ∨ size < -330 then zero negative
  else if 310 < size then .infinite negative
  else ofQuotient negative (digits * Nat.pow 10 exponent.toNat) (Nat.pow 10 (-exponent).toNat)

end Double

end ExprLang
