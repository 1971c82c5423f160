import TypedLisp.Check.Instantiate
import TypedLisp.Form.Writing

/-!
Checking expressions. The recursion goes from an expression to its parts; only the body of a
template is checked apart, by a checker that is given, so that how deep templates are nested is
counted elsewhere.
-/

namespace TypedLisp.CheckM

/-- An operator that is neither built in nor bound. -/
def rejectUnknownOperator (head : Datum) (expr : Datum) (scope : ScopeId) : CheckM Unit := do
  match head with
  | .symbol name =>
      if Word.isOperatorLike name ∧ ((← context).lookup? scope name).isNone then
        reject (.unknownOperator name expr)
  | _ => return

mutual

/-- The type of an expression in a scope. -/
def checkExpr (inBody : Datum → ScopeId → CheckM Ty) (d : Datum) (scope : ScopeId) : CheckM Ty :=
  match _hd : Form.classify d with
  | .error m => reject (.malformedForm m.form m.fault d)
  | .ok form => do
      emit (.checking d scope)
      match _hf : form with
      | .number _ => return .number
      | .text _ => return .string
      | .boolean _ => return .boolean
      | .name n => lookup scope n d
      | .binary op [left, right] =>
          let leftType ← checkExpr inBody left scope
          let rightType ← checkExpr inBody right scope
          operate op left right leftType rightType d
      | .binary op operands => reject (.arityMismatch op.text 2 operands.length d)
      | .var n typeText value =>
          let t ← checkExpr inBody value scope
          declareVar n typeText value t d scope
      | .assign (.name n) value =>
          let declared ← lookup scope n d
          let t ← checkExpr inBody value scope
          expect t declared value d
          return declared
      | .assign (.field object field) value =>
          let objectType ← checkExpr inBody object scope
          let declared ← fieldType objectType field d
          let t ← checkExpr inBody value scope
          expect t declared value d
          return declared
      | .block body =>
          let inner ← change fun c => c.child scope
          checkBlock inBody body inner
      | .cond condition whenTrue whenFalse =>
          let t ← checkExpr inBody condition scope
          expect t .boolean condition d
          let branch ← narrow condition scope
          let trueType ← checkExpr inBody whenTrue branch
          let falseType ← checkExpr inBody whenFalse scope
          expect falseType trueType whenFalse d
          return trueType
      | .loop condition body =>
          let t ← checkExpr inBody condition scope
          expect t .boolean condition d
          checkExpr inBody body scope
      | .define n (some typeList) parts =>
          let t ← makeTemplate n typeList parts d scope
          emit (.templateDeclared t)
          define scope n t
      | .define n none parts =>
          let s ← signature parts d
          let _ ← define scope n s.toTy
          checkFunction inBody parts.params s parts.body d scope
          emit (.functionDeclared n s.toTy)
          define scope n s.toTy
      | .lambda (some typeList) parts => makeTemplate "lambda" typeList parts d scope
      | .lambda none parts =>
          let s ← signature parts d
          checkFunction inBody parts.params s parts.body d scope
          return s.toTy
      | .typeDecl n base => declareType n base d
      | .classDecl n parent body =>
          let c ← declareClass n parent d scope
          let _ ← checkBody inBody body c.fields
          return .ofClass c
      | .new className args =>
          let (c, s) ← constructorOf className d
          let types ← checkEach inBody args scope
          let self := (Datum.symbol className, Ty.ofClass c)
          acceptArguments s (className ++ " " ++ constructorName) (self :: args.zip types) d
          return .ofClass c
      | .super className => superclass className d
      | .prop object field =>
          let t ← checkExpr inBody object scope
          fieldType t field d
      | .call (.plain head typeArgs) args =>
          rejectUnknownOperator head d scope
          let callee ← checkExpr inBody head scope
          let s ← calledSignature inBody callee head.shown typeArgs d
          let types ← checkEach inBody args scope
          acceptArguments s head.shown (args.zip types) d
          return s.result
      | .call (.fused n typeArgs) args =>
          let callee ← lookup scope n d
          let s ← calledSignature inBody callee n (some typeArgs) d
          let types ← checkEach inBody args scope
          acceptArguments s n (args.zip types) d
          return s.result
termination_by 3 * sizeOf d
decreasing_by
  all_goals subst _hf
  all_goals
    first
    | have := Form.sizeOf_lt_of_classify _hd (List.mem_cons_self ..)
      omega
    | have := Form.sizeOf_rest_lt_of_classify _hd
      simp only [Form.rest] at this
      omega
    | have := Form.sizeOf_lt_of_classify _hd (List.mem_cons_of_mem _ (List.mem_cons_self ..))
      omega
    | have := Form.sizeOf_lt_of_classify _hd
        (List.mem_cons_of_mem _ (List.mem_cons_of_mem _ (List.mem_cons_self ..)))
      omega

/-- Check the body of a plain function against its signature. -/
def checkFunction (inBody : Datum → ScopeId → CheckM Ty) (params : List Param) (s : Signature)
    (body expr : Datum) (closure : ScopeId) : CheckM Unit := do
  let symbols ← internAll (params.map Param.name)
  let scope ← openFunction closure (symbols.zip s.params)
  let t ← checkBody inBody body scope
  expect t s.result body expr
termination_by 3 * sizeOf body + 2

/-- The types of expressions, checked in turn. -/
def checkEach (inBody : Datum → ScopeId → CheckM Ty) (ds : List Datum) (scope : ScopeId) :
    CheckM (List Ty) := do
  match ds with
  | [] => return []
  | d :: ds =>
      let first ← checkExpr inBody d scope
      let others ← checkEach inBody ds scope
      return first :: others
termination_by 3 * sizeOf ds

/-- The type of the last of some expressions, checked in turn; of none it is `null`. -/
def checkBlock (inBody : Datum → ScopeId → CheckM Ty) (ds : List Datum) (scope : ScopeId) :
    CheckM Ty := do
  match ds with
  | [] => return .null
  | [d] => checkExpr inBody d scope
  | d :: next :: ds =>
      let _ ← checkExpr inBody d scope
      checkBlock inBody (next :: ds) scope
termination_by 3 * sizeOf ds

/-- The type of a body. A block as a body uses the scope it is given and opens none. -/
def checkBody (inBody : Datum → ScopeId → CheckM Ty) (d : Datum) (scope : ScopeId) : CheckM Ty :=
  match d with
  | .list (.symbol tag :: items) =>
      if tag = Keyword.begin.text then checkBlock inBody items scope
      else checkExpr inBody (.list (.symbol tag :: items)) scope
  | d => checkExpr inBody d scope
termination_by 3 * sizeOf d + 1

end

/-- Check the body of a template, with at most `depth` bodies nested. Within the bound nothing but the
program decides the answer; a template that calls itself at ever larger types exceeds every bound. -/
def bodyWithin : Nat → Datum → ScopeId → CheckM Ty
  | 0, _, _ => throw .tooDeep
  | depth + 1, d, scope => checkBody (bodyWithin depth) d scope

end TypedLisp.CheckM
