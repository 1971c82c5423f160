namespace TypedLisp

namespace Text

/-- The White_Space property: five control characters, the space, and the wider spaces. -/
def isBlank (c : Char) : Bool :=
  let n := c.toNat
  (0x09 ≤ n && n ≤ 0x0D) || n == 0x20 || n == 0x85 || n == 0xA0 || n == 0x1680 ||
    (0x2000 ≤ n && n ≤ 0x200A) || n == 0x2028 || n == 0x2029 || n == 0x202F || n == 0x205F ||
    n == 0x3000

/-- Remove blanks from both ends. -/
def trimBlanks (s : String) : String :=
  String.ofList (((s.toList.dropWhile isBlank).reverse.dropWhile isBlank).reverse)

end Text

open Text

namespace TypeExpr

/-- The characters between which names stand, also inside the symbols of a program. -/
def isMark (c : Char) : Bool :=
  c == '<' || c == '>' || c == ','

def isNameChar (c : Char) : Bool :=
  !(isBlank c || isMark c)

end TypeExpr

namespace Datum

/-- Atoms end at a blank, a parenthesis, a quote or a comment. -/
def isAtomChar (c : Char) : Bool :=
  !(isBlank c || c == '(' || c == ')' || c == '"' || c == ';')

/-- A digit, or a sign or point with a digit or point after it, makes an atom a number. -/
def looksNumeric : List Char → Bool
  | [] => false
  | c :: cs =>
      c.isDigit ||
        ((c == '-' || c == '+' || c == '.') &&
          match cs with
          | [] => false
          | d :: _ => d.isDigit || d == '.')

end Datum

end TypedLisp
