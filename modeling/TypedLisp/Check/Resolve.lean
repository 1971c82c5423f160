import TypedLisp.Check.Monad

namespace TypedLisp.CheckM

def parseType (text : String) (expr : Datum) : CheckM TypeExpr :=
  match TypeExpr.parse text with
  | .ok t => return t
  | .error m => reject (.malformedType m.text m.reason expr)

def parseTypeList (text : String) (expr : Datum) : CheckM (List TypeExpr) :=
  match TypeExpr.parseList? text with
  | some (.ok ts) => return ts
  | some (.error m) => reject (.malformedType m.text m.reason expr)
  | none => reject (.malformedType text .notAList expr)

mutual

def resolveExpr (expr : Datum) : TypeExpr → CheckM Ty
  | .named name => do
      match (← context).registered? name with
      | some t => return t
      | none => reject (.unknownType name expr)
  | .function params result => do
      let canonical := (TypeExpr.function params result).shown
      match (← context).registered? canonical with
      | some t => return t
      | none =>
          let params ← resolveExprs expr params
          let result ← resolveExpr expr result
          change fun c => c.cache canonical (.function params result)

def resolveExprs (expr : Datum) : List TypeExpr → CheckM (List Ty)
  | [] => return []
  | t :: ts => do
      let first ← resolveExpr expr t
      let others ← resolveExprs expr ts
      return first :: others

end

/-- The type that a text names. -/
def resolve (text : String) (expr : Datum) : CheckM Ty := do
  match (← context).registered? text with
  | some t => return t
  | none =>
      let parsed ← parseType text expr
      let t ← resolveExpr expr parsed
      unless parsed.isNamed do
        let _ ← change fun c => c.cache text t
      return t

def resolveAll (expr : Datum) : List String → CheckM (List Ty)
  | [] => return []
  | text :: texts => do
      let first ← resolve text expr
      let others ← resolveAll expr texts
      return first :: others

end TypedLisp.CheckM
