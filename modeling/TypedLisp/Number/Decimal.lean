import TypedLisp.Number.Binary64

namespace TypedLisp

/-- The number `coefficient * 10 ^ exponent`. -/
structure Decimal where
  coefficient : Nat
  exponent : Int
  deriving DecidableEq

namespace Decimal

def numerator (d : Decimal) : Nat :=
  d.coefficient * Nat.pow 10 d.exponent.toNat

def denominator (d : Decimal) : Nat :=
  Nat.pow 10 (-d.exponent).toNat

/-- The nearest magnitude. Exponents far outside the range of the format are decided without
computing their power: `10 ^ 310` is infinite, and `m / 10 ^ k` with `k` past `log2 m + 400`
rounds to zero. -/
def magnitude (d : Decimal) : Nat :=
  if d.coefficient = 0 then 0
  else if 310 < d.exponent then Binary64.infiniteMagnitude
  else if (d.coefficient.log2 : Int) + 400 < -d.exponent then 0
  else Binary64.nearest d.numerator d.denominator

/-- Move the zeros at the end of the coefficient into the exponent. -/
def trimZeros (coefficient : Nat) (exponent : Int) : Decimal :=
  if h : 0 < coefficient ∧ coefficient % 10 = 0 then
    trimZeros (coefficient / 10) (exponent + 1)
  else
    ⟨coefficient, exponent⟩
termination_by coefficient
decreasing_by omega

/-- Positional notation: no exponent, and a point only where there are places after it. -/
def positional (d : Decimal) : List Char :=
  let digits := Nat.toDigits 10 d.coefficient
  let places := (-d.exponent).toNat
  if places = 0 then
    digits ++ List.replicate d.exponent.toNat '0'
  else if places < digits.length then
    digits.take (digits.length - places) ++ '.' :: digits.drop (digits.length - places)
  else
    '0' :: '.' :: (List.replicate (places - digits.length) '0' ++ digits)

end Decimal

end TypedLisp
