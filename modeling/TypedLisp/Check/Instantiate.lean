import TypedLisp.Check.Rules
import TypedLisp.Datum.Specialize

/-!
Instances of templates. An instance is recorded before its body is checked, so that the body can
call the template at the same types, and is forgotten if the body is rejected.
-/

namespace TypedLisp

/-- The value paired with a name; of several the last. -/
def lastPaired? {α : Type} (name : String) : List String → List α → Option α
  | n :: names, a :: values =>
      (lastPaired? name names values).or (if n = name then some a else none)
  | _, _ => none

namespace CheckM

/-- Check the body of a function in a scope of its own, and require its result type. -/
def checkFunctionBody (inBody : Datum → ScopeId → CheckM Ty) (closure : ScopeId)
    (bindings : List (Symbol × Ty)) (body : Datum) (result : Ty) (expr : Datum) : CheckM Unit := do
  let scope ← openFunction closure bindings
  let t ← inBody body scope
  expect t result body expr

/-- The signature of a template at actual types. -/
def actualSignature (g : Template) (actuals : List TypeExpr) (expr : Datum) :
    CheckM Signature := do
  let actual name := lastPaired? name g.typeParams actuals
  let params ← resolveExprs expr (g.params.map fun p => p.2.substitute actual)
  let result ← resolveExpr expr (g.result.substitute actual)
  return ⟨params, result⟩

/-- The body of a template at actual types, given by their names. -/
def actualBody (g : Template) (names : List String) : Datum :=
  g.body.specialize fun name => lastPaired? name g.typeParams names

/-- The signature of a template at the types of a written list. `inBody` checks a body in a scope.
-/
def instantiate (inBody : Datum → ScopeId → CheckM Ty) (g : Template) (typeList : String)
    (expr : Datum) : CheckM Signature := do
  let actuals ← parseTypeList typeList expr
  if actuals.length ≠ g.typeParams.length then
    reject (.arityMismatch g.shown g.typeParams.length actuals.length expr)
  else
    let types ← resolveExprs expr actuals
    let key : InstanceKey := ⟨g.id, types.map Ty.name⟩
    match (← context).instance? key with
    | some s => return s
    | none =>
        let s ← actualSignature g actuals expr
        emit (.instantiated g s)
        update fun c => c.record key s
        let bindings := (g.params.map Prod.fst).zip s.params
        tryCatch
          (checkFunctionBody inBody g.closure bindings (actualBody g key.actuals) s.result expr)
          fun halt => do
            update fun c => c.forget key
            throw halt
        return s

/-- The signature that a call uses. -/
def calledSignature (inBody : Datum → ScopeId → CheckM Ty) (callee : Ty) (calleeName : String)
    (typeArgs : Option String) (expr : Datum) : CheckM Signature :=
  match callee, typeArgs with
  | .template g, some list => instantiate inBody g list expr
  | .template g, none => reject (.missingActualTypes g.shown expr)
  | _, some _ => reject (.malformedForm calleeName .notGeneric expr)
  | t, none =>
      match t.signature? with
      | some s => return s
      | none => reject (.notCallable t.name expr)

end CheckM

end TypedLisp
