namespace TypedLisp

inductive TypeExpr where
  | named (name : String)
  | function (params : List TypeExpr) (result : TypeExpr)
  deriving Inhabited

namespace TypeExpr

def isNamed : TypeExpr → Bool
  | named _ => true
  | function _ _ => false

/-- The text of a function type, from the texts of its parameters and its result. -/
def functionText (params : List String) (result : String) : String :=
  match params with
  | [] => "Fn<" ++ result ++ ">"
  | p :: ps => "Fn<" ++ result ++ "<" ++ String.intercalate "," (p :: ps) ++ ">>"

mutual

def shown : TypeExpr → String
  | named name => name
  | function params result => functionText (shownEach params) (shown result)

def shownEach : List TypeExpr → List String
  | [] => []
  | t :: ts => shown t :: shownEach ts

end

theorem shownEach_eq_map (ts : List TypeExpr) : shownEach ts = ts.map shown := by
  induction ts with
  | nil => rw [shownEach, List.map_nil]
  | cons t ts ih => rw [shownEach, List.map_cons, ih]

mutual

/-- Replace every name that `actual` knows, all at once. -/
def substitute (actual : String → Option TypeExpr) : TypeExpr → TypeExpr
  | named name => (actual name).getD (named name)
  | function params result =>
      function (substituteAll actual params) (substitute actual result)

def substituteAll (actual : String → Option TypeExpr) : List TypeExpr → List TypeExpr
  | [] => []
  | t :: ts => substitute actual t :: substituteAll actual ts

end

theorem substituteAll_eq_map (actual : String → Option TypeExpr) (ts : List TypeExpr) :
    substituteAll actual ts = ts.map (substitute actual) := by
  induction ts with
  | nil => rw [substituteAll, List.map_nil]
  | cons t ts ih => rw [substituteAll, List.map_cons, ih]

end TypeExpr

end TypedLisp
