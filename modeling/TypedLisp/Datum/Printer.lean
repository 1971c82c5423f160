import TypedLisp.Datum.Basic
import TypedLisp.Number.Shortest

namespace TypedLisp.Datum

def escape : List Char → List Char
  | [] => []
  | c :: cs => if c = '"' ∨ c = '\\' then '\\' :: c :: escape cs else c :: escape cs

mutual

/-- The written form of a datum, in front of what follows it. -/
def charsBefore : Datum → List Char → List Char
  | number x, rest => x.toChars ++ rest
  | text s, rest => '"' :: (escape s.toList ++ '"' :: rest)
  | boolean b, rest => (if b then "true".toList else "false".toList) ++ rest
  | symbol name, rest => name.toList ++ rest
  | list items, rest => '(' :: itemsBefore items (')' :: rest)

def itemsBefore : List Datum → List Char → List Char
  | [], rest => rest
  | [d], rest => charsBefore d rest
  | d :: ds, rest => charsBefore d (' ' :: itemsBefore ds rest)

end

def toChars (d : Datum) : List Char :=
  d.charsBefore []

def shown (d : Datum) : String :=
  String.ofList d.toChars

/-- Data written one after the other, separated by one space. -/
def shownAll (ds : List Datum) : String :=
  String.ofList (itemsBefore ds [])

mutual

theorem charsBefore_append (d : Datum) (rest more : List Char) :
    d.charsBefore (rest ++ more) = d.charsBefore rest ++ more := by
  cases d with
  | number x => simp [charsBefore]
  | text s => simp [charsBefore]
  | boolean b => simp [charsBefore]
  | symbol name => simp [charsBefore]
  | list items =>
      rw [charsBefore, charsBefore, List.cons_append, ← itemsBefore_append, List.cons_append]

theorem itemsBefore_append (ds : List Datum) (rest more : List Char) :
    itemsBefore ds (rest ++ more) = itemsBefore ds rest ++ more := by
  match ds with
  | [] => simp [itemsBefore]
  | [d] => rw [itemsBefore, itemsBefore, charsBefore_append]
  | d :: next :: ds =>
      show charsBefore d (' ' :: itemsBefore (next :: ds) (rest ++ more)) =
        charsBefore d (' ' :: itemsBefore (next :: ds) rest) ++ more
      rw [itemsBefore_append (next :: ds), ← List.cons_append, charsBefore_append]

end

theorem charsBefore_eq (d : Datum) (rest : List Char) : d.charsBefore rest = d.toChars ++ rest :=
  charsBefore_append d [] rest

end TypedLisp.Datum
