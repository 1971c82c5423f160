import TypedLisp.Datum.Basic
import TypedLisp.Text

namespace TypedLisp.Datum

open TypedLisp.TypeExpr (isMark)

/-- Replace the parts between marks. `part` holds the characters of the current part, last first. -/
def replaceParts (actual : String → Option String) (part : List Char) : List Char → List Char
  | [] => replaced
  | c :: cs =>
      if isMark c then replaced ++ c :: replaceParts actual [] cs
      else replaceParts actual (c :: part) cs
where
  replaced : List Char :=
    let whole := String.ofList part.reverse
    ((actual whole).getD whole).toList

def specializeSymbol (actual : String → Option String) (name : String) : String :=
  match actual name with
  | some replacement => replacement
  | none =>
      if name.toList.contains '<' then String.ofList (replaceParts actual [] name.toList)
      else name

mutual

/-- Replace names in every symbol; all else stays as it is. -/
def specialize (actual : String → Option String) : Datum → Datum
  | symbol name => symbol (specializeSymbol actual name)
  | list items => list (specializeAll actual items)
  | number x => number x
  | text s => text s
  | boolean b => boolean b

def specializeAll (actual : String → Option String) : List Datum → List Datum
  | [] => []
  | d :: ds => specialize actual d :: specializeAll actual ds

end

theorem specializeAll_eq_map (actual : String → Option String) (ds : List Datum) :
    specializeAll actual ds = ds.map (specialize actual) := by
  induction ds with
  | nil => rw [specializeAll, List.map_nil]
  | cons d ds ih => rw [specializeAll, List.map_cons, ih]

end TypedLisp.Datum
