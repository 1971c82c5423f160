import TypedLisp.Number.Decimal

namespace TypedLisp

namespace Literal

/-- Split off a sign; true for a minus. -/
def sign : List Char → Bool × List Char
  | '-' :: cs => (true, cs)
  | '+' :: cs => (false, cs)
  | cs => (false, cs)

/-- The digits after a point, if the text goes on with a point. -/
def fraction : List Char → List Char × List Char
  | '.' :: cs => (cs.takeWhile Char.isDigit, cs.dropWhile Char.isDigit)
  | cs => ([], cs)

/-- The value of an exponent's digits, up to the first that takes it past 65535. Such an exponent
is out of range already, unless the literal has as many digits before it. -/
def exponentValue (digits : List Char) : Nat :=
  digits.foldl (fun e c => if e < 65536 then Nat.ofDigitChars 10 [c] e else e) 0

/-- The exponent that makes up the rest of a literal; it may be absent. -/
def exponent? : List Char → Option Int
  | [] => some 0
  | c :: cs =>
      let (negative, digits) := sign cs
      if (c = 'e' ∨ c = 'E') ∧ digits ≠ [] ∧ digits.all Char.isDigit then
        let n : Int := exponentValue digits
        some (if negative then -n else n)
      else
        none

end Literal

/-- The number that a literal denotes, rounded to the nearest. -/
def Binary64.ofLiteral? (cs : List Char) : Option Binary64 :=
  let (negative, cs) := Literal.sign cs
  let whole := cs.takeWhile Char.isDigit
  let (places, rest) := Literal.fraction (cs.dropWhile Char.isDigit)
  if whole ++ places = [] then none
  else
    (Literal.exponent? rest).map fun e =>
      let decimal : Decimal := ⟨Nat.ofDigitChars 10 (whole ++ places) 0, e - places.length⟩
      Binary64.ofMagnitude negative decimal.magnitude

end TypedLisp
