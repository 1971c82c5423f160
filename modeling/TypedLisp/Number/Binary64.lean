/-!
Double-precision numbers as bit patterns. A finite magnitude is a whole number of units of
`2 ^ -1074`, so decoding and rounding are exact arithmetic on natural numbers.
-/

namespace TypedLisp

/-- A double-precision number. Both zeros, the infinities and all patterns that are no number are
told apart by their bits. -/
structure Binary64 where
  bits : UInt64
  deriving DecidableEq, Inhabited

namespace Binary64

/-- The weight of the sign bit, `2 ^ 63`. -/
def signWeight : Nat := 0x8000000000000000

/-- The weight of the lowest exponent bit, `2 ^ 52`. It is also that of the leading bit of a normal
significand, which is not stored. -/
def exponentWeight : Nat := 0x10000000000000

def isNegative (x : Binary64) : Bool :=
  decide (signWeight ≤ x.bits.toNat)

/-- The bits below the sign. -/
def magnitude (x : Binary64) : Nat :=
  x.bits.toNat % signWeight

/-- The magnitude of the infinities: all exponent bits set and no fraction. -/
def infiniteMagnitude : Nat := 2047 * exponentWeight

def isFinite (x : Binary64) : Bool :=
  decide (x.magnitude < infiniteMagnitude)

def isNaN (x : Binary64) : Bool :=
  decide (infiniteMagnitude < x.magnitude)

def ofMagnitude (negative : Bool) (magnitude : Nat) : Binary64 :=
  ⟨UInt64.ofNat (magnitude + if negative then signWeight else 0)⟩

/-- Numeric equality: the two zeros are equal, and what is no number equals nothing. -/
def numericEq (x y : Binary64) : Bool :=
  !x.isNaN && !y.isNaN && (x == y || (x.magnitude == 0 && y.magnitude == 0))

/-- The power of two by which the significand of a magnitude is scaled. -/
def scale (magnitude : Nat) : Nat :=
  magnitude / exponentWeight - 1

def significand (magnitude : Nat) : Nat :=
  magnitude - scale magnitude * exponentWeight

/-- The value of a finite magnitude in units of `2 ^ -1074`. -/
def units (magnitude : Nat) : Nat :=
  significand magnitude <<< scale magnitude

/-- The quotient rounded to the nearest whole number, a half to the even neighbour. -/
def roundDiv (n d : Nat) : Nat :=
  let q := n / d
  let r := n % d
  if 2 * r < d then q
  else if d < 2 * r then q + 1
  else if q % 2 = 0 then q
  else q + 1

/-- The magnitude nearest to `n / d`, the even one of two equally near. Since a magnitude is its
scale and its significand added up, a significand rounded up to `2 ^ 53` carries into the scale.
-/
def nearest (n d : Nat) : Nat :=
  let scaled := n <<< 1074
  let s := (scaled / d).log2 - 52
  min (s * exponentWeight + roundDiv scaled (d <<< s)) infiniteMagnitude

end Binary64

end TypedLisp
