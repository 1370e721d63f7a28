/-
The decimal text of a number of double precision: the fewest digits that
still tell the number from all others.

A finite number is a natural number in units of a power of ten. What reads
back as it are the numbers up to half way to its neighbours, the ends
included when its mantissa is even. The digits are looked for on coarser and
then finer grids of powers of ten, and the first grid with a point that reads
back gives them.

Numbers from `0.0001` to below `10 ^ 16` are written with a decimal point and
at least one digit behind it, others with an exponent of at least two digits.
-/
import ExprLang.Double.Basic

namespace ExprLang.Double

/-! ## Digits -/

/-- Two to the power of an exponent, in units of ten to the power of the
exponent where it is negative. -/
def scale (exponent : Int) : Nat :=
  if exponent < 0 then Nat.pow 5 (-exponent).toNat else Nat.pow 2 exponent.toNat

/-- Whether a natural number reads back as `mantissa * scale`. Right below a
power of two the numbers lie twice as close as above it. -/
def readsBack (mantissa : Nat) (exponent : Int) (candidate : Nat) : Bool :=
  let width := scale exponent
  let exact := mantissa * width
  let isNarrow := mantissa = leastMantissa ∧ leastExponent < exponent
  let distance :=
    if exact ≤ candidate then 2 * (candidate - exact)
    else (if isNarrow then 4 else 2) * (exact - candidate)
  if mantissa % 2 = 0 then distance ≤ width else distance < width

/-- The point of a grid that reads back, the nearer one of two, and of two
that are equally near the one with an even last digit. -/
def onGrid (mantissa : Nat) (exponent : Int) (grid : Nat) : Option Nat :=
  let exact := mantissa * scale exponent
  let lower := exact / grid * grid
  let upper := lower + grid
  match readsBack mantissa exponent lower, readsBack mantissa exponent upper with
  | true, true =>
    let isLower := 2 * exact < lower + upper ∨
      (2 * exact = lower + upper ∧ exact / grid % 2 = 0)
    some (if isLower then lower else upper)
  | true, false => some lower
  | false, true => some upper
  | false, false => none

/-- The number with the fewest digits that reads back, in the units of `scale`. -/
def shortest (mantissa : Nat) (exponent : Int) : Nat :=
  let exact := mantissa * scale exponent
  let places := (List.range (Nat.toDigits 10 exact).length).reverse
  (places.findSome? fun place => onGrid mantissa exponent (Nat.pow 10 place)).getD exact

/-! ## Layout -/

/-- Zeros in a row. -/
def zeros (n : Nat) : List Char := List.replicate n '0'

/-- Digits with a decimal point; `place` is the power of ten of the first one. -/
def positional (digits : List Char) (place : Int) : List Char :=
  if place < 0 then '0' :: '.' :: zeros (-place - 1).toNat ++ digits
  else
    let whole := place.toNat + 1
    let behind := digits.drop whole
    digits.take whole ++ zeros (whole - digits.length) ++
      '.' :: (if behind.isEmpty then ['0'] else behind)

/-- Digits with an exponent. -/
def scientific (digits : List Char) (place : Int) : List Char :=
  let behind := digits.drop 1
  let exponent := Nat.toDigits 10 place.natAbs
  digits.take 1 ++ (if behind.isEmpty then [] else '.' :: behind) ++
    ['e', if place < 0 then '-' else '+'] ++ zeros (2 - exponent.length) ++ exponent

/-- The text of a number without its sign. -/
def magnitude (mantissa : Nat) (exponent : Int) : List Char :=
  if mantissa = 0 then ['0', '.', '0']
  else
    let all := Nat.toDigits 10 (shortest mantissa exponent)
    let digits := (all.reverse.dropWhile (· = '0')).reverse
    let place : Int := all.length - 1 + min exponent 0
    if -4 ≤ place ∧ place < 16 then positional digits place else scientific digits place

/-- The text of a number. -/
def text : Double → String
  | .finite negative mantissa exponent =>
    String.ofList ((if negative then ['-'] else []) ++ magnitude mantissa exponent)
  | .infinite negative => if negative then "-inf" else "inf"
  | .nan => "nan"

end ExprLang.Double
