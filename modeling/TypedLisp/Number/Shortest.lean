import TypedLisp.Number.Decimal

namespace TypedLisp

namespace Shortest

/-- The value of a finite magnitude is `numerator / denominator`. -/
def numerator (magnitude : Nat) : Nat :=
  Binary64.significand magnitude <<< (Binary64.scale magnitude - 1074)

def denominator (magnitude : Nat) : Nat :=
  1 <<< (1074 - Binary64.scale magnitude)

def digitCount (n : Nat) : Nat :=
  (Nat.toDigits 10 n).length

/-- The `e` with `10 ^ (e - 1) ≤ v < 10 ^ e`, for the value `v` of a positive finite magnitude. From
one on it counts the digits of the whole part. Below one it is found from `10 ^ -e < 1 / v`, which
holds of a power of ten just if the power is at most the whole part of `(d - 1) / n`. -/
def decade (magnitude : Nat) : Int :=
  let n := numerator magnitude
  let d := denominator magnitude
  if n < d then 1 - digitCount ((d - 1) / n) else digitCount (n / d)

/-- The decimal of `count` digits that reads back as `magnitude`, whose decade is given: one of the
two neighbours of the value among such decimals, the nearer if both read back, the upper if both
are equally near. -/
def withDigits? (magnitude : Nat) (decade : Int) (count : Nat) : Option Decimal :=
  let e : Int := decade - count
  let n := numerator magnitude * Nat.pow 10 (-e).toNat
  let d := denominator magnitude * Nat.pow 10 e.toNat
  let lower : Decimal := ⟨n / d, e⟩
  let upper : Decimal := ⟨n / d + 1, e⟩
  if lower.magnitude = magnitude then
    if upper.magnitude = magnitude ∧ d ≤ 2 * (n % d) then some upper else some lower
  else if upper.magnitude = magnitude then some upper
  else none

/-- The value itself, with all its digits. -/
def allDigits (magnitude : Nat) : Decimal :=
  ⟨Binary64.units magnitude * Nat.pow 5 1074, -1074⟩

/-- Seventeen digits tell any two numbers apart, so more are not tried. -/
def digits (magnitude : Nat) : Decimal :=
  let e := decade magnitude
  ((List.range' 1 17).findSome? (withDigits? magnitude e)).getD (allDigits magnitude)

end Shortest

/-- The text of a magnitude that is a number. -/
def Binary64.magnitudeText (magnitude : Nat) : List Char :=
  if magnitude = infiniteMagnitude then "inf".toList
  else if magnitude = 0 then ['0']
  else
    let d := Shortest.digits magnitude
    (Decimal.trimZeros d.coefficient d.exponent).positional

/-- Positional notation with a minus for every negative number, zero included. -/
def Binary64.toChars (x : Binary64) : List Char :=
  if x.isNaN then "NaN".toList
  else if x.isNegative then '-' :: magnitudeText x.magnitude
  else magnitudeText x.magnitude

end TypedLisp
