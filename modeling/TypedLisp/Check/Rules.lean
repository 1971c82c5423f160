import TypedLisp.Check.Resolve
import TypedLisp.Ty.Equality

namespace TypedLisp

namespace CheckM

/-- Require that one type is accepted for another. -/
def expect (actual expected : Ty) (expr within : Datum) : CheckM Unit :=
  unless actual.equals expected do
    reject (.typeMismatch expected.name actual.name expr within)

end CheckM

namespace Operator

/-- The types that an arithmetic operator takes. -/
def allowed : Operator → List Ty
  | add => [.number, .string]
  | _ => [.number]

end Operator

namespace Ty

mutual

/-- An operand is allowed through aliases, and a union if all its options are. -/
def allowedAs (allowed : List Ty) : Ty → Bool
  | aliasOf _ parent => allowedAs allowed parent
  | union _ _ options => allAllowedAs allowed options
  | primitive p => allowed.any fun t => (primitive p).equals t
  | function params result => allowed.any fun t => (function params result).equals t
  | ofClass c => allowed.any fun t => (ofClass c).equals t
  | template g => allowed.any fun t => (template g).equals t

def allAllowedAs (allowed : List Ty) : List Ty → Bool
  | [] => true
  | t :: ts => allowedAs allowed t && allAllowedAs allowed ts

end

end Ty

namespace CheckM

/-- The rule for operators: in strict arithmetic the left operand has to be allowed, and the right
one always has to be accepted for the left. -/
def operate (op : Operator) (left right : Datum) (leftType rightType : Ty) (expr : Datum) :
    CheckM Ty := do
  let options := (← context).options
  if !op.isComparison && options.strictOperands && !leftType.allowedAs op.allowed then
    reject (.typeMismatch (String.intercalate " | " (op.allowed.map Ty.name)) leftType.name left
      expr)
  else
    expect rightType leftType right expr
    return if op.isComparison then .boolean else leftType

/-- The rule for variables, once the value has a type. -/
def declareVar (name : String) (typeText : Option String) (value : Datum) (valueType : Ty)
    (expr : Datum) (scope : ScopeId) : CheckM Ty := do
  match typeText with
  | none => define scope name valueType
  | some text =>
      let declared ← resolve text expr
      expect valueType declared value expr
      define scope name declared

/-- The guard `(== (typeof name) "Type")`: the name and the type it is narrowed to. -/
def narrowing? : Datum → Option (String × String)
  | .list [.symbol op, .list [.symbol tag, .symbol name], .text type] =>
      if op = "==" ∧ tag = "typeof" then some (name, type) else none
  | _ => none

/-- The scope of the branch that a guard opens: one with the narrowed name, or no new one. -/
def narrow (condition : Datum) (scope : ScopeId) : CheckM ScopeId := do
  match narrowing? condition with
  | none => return scope
  | some (name, text) =>
      let t ← resolve text condition
      let branch ← change fun c => c.child scope
      emit (.narrowing name t)
      let _ ← define branch name t
      return branch

/-- The signature that the parts of a function are written with. -/
def signature (parts : FunctionParts) (expr : Datum) : CheckM Signature := do
  let params ← resolveAll expr (parts.params.map Param.typeText)
  let result ← resolve parts.resultText expr
  return ⟨params, result⟩

def internAll : List String → CheckM (List Symbol)
  | [] => return []
  | name :: names => do
      let first ← change fun c => c.intern name
      let others ← internAll names
      return first :: others

/-- A scope for a function's body, with its parameters bound. -/
def openFunction (closure : ScopeId) (bindings : List (Symbol × Ty)) : CheckM ScopeId := do
  let scope ← change fun c => c.child closure
  update fun c => bindings.foldl (fun c (s, t) => c.bind scope s t) c
  return scope

/-- Type parameters have to be plain names. -/
def plainNames? : List TypeExpr → Option (List String)
  | [] => some []
  | .named name :: ts => (plainNames? ts).map (name :: ·)
  | .function _ _ :: _ => none

/-- The written parameters of a template: their types are parsed and their names interned. -/
def templateParams (expr : Datum) : List Param → CheckM (List (Symbol × TypeExpr))
  | [] => return []
  | p :: ps => do
      let t ← parseType p.typeText expr
      let s ← change fun c => c.intern p.name
      let others ← templateParams expr ps
      return (s, t) :: others

/-- The template of a generic function. Its types and its body wait for actual types. -/
def makeTemplate (name typeList : String) (parts : FunctionParts) (expr : Datum)
    (closure : ScopeId) : CheckM Ty := do
  match plainNames? (← parseTypeList typeList expr) with
  | none => reject (.malformedType typeList .notPlainNames expr)
  | some typeParams =>
      let params ← templateParams expr parts.params
      let result ← parseType parts.resultText expr
      let serial ← change Context.newTemplate
      return .template ⟨serial, name, typeParams, params, result, parts.body, closure⟩

def ensureUndeclared (name : String) (expr : Datum) : CheckM Unit := do
  match (← context).registered? name with
  | some existing => reject (.duplicateType name existing.name expr)
  | none => return

def declare (name : String) (t : Ty) (expr : Datum) : CheckM Unit := do
  match ← change fun c => c.declare name t with
  | some existing => reject (.duplicateType name existing.name expr)
  | none => return

/-- Resolve the base of a declared type; an unknown type is an unknown base. -/
def resolveBase (text : String) (expr : Datum) : CheckM Ty :=
  tryCatch (resolve text expr) fun
    | .rejected (.unknownType name e) => reject (.unknownBaseType name e)
    | halt => throw halt

def resolveBases (expr : Datum) : List String → CheckM (List Ty)
  | [] => return []
  | text :: texts => do
      let first ← resolveBase text expr
      let others ← resolveBases expr texts
      return first :: others

/-- The type that a declaration makes. A union is numbered by the types registered before it. -/
def baseType (name : String) (base : TypeBase) (expr : Datum) : CheckM Ty := do
  match base with
  | .aliasOf text =>
      let parent ← resolveBase text expr
      return .aliasOf name parent
  | .union texts =>
      let options ← resolveBases expr texts
      return .union (← context).registry.size name options

def declareType (name : String) (base : TypeBase) (expr : Datum) : CheckM Ty := do
  ensureUndeclared name expr
  let t ← baseType name base expr
  declare name t expr
  emit (.typeDeclared t name)
  return t

/-- A registered class, through aliases. -/
def classNamed (name : String) (expr : Datum) : CheckM ClassTy := do
  match (← context).registered? name with
  | none => reject (.unknownClass name expr)
  | some t =>
      match t.class? with
      | some c => return c
      | none => reject (.notAClass t.name expr)

/-- The word that stands for no superclass. -/
def rootWord : String := "null"

/-- Register a class and bind its name, with its members still to come. -/
def declareClass (name superclass : String) (expr : Datum) (scope : ScopeId) :
    CheckM ClassTy := do
  ensureUndeclared name expr
  let parent ← if superclass = rootWord then pure none else some <$> classNamed superclass expr
  let fields ← change fun c => c.memberTable (parent.map ClassTy.fields) scope
  let c := ClassTy.extending name fields parent
  declare name (.ofClass c) expr
  let _ ← define scope name (.ofClass c)
  emit (.classDeclared name superclass)
  return c

def superclass (name : String) (expr : Datum) : CheckM Ty := do
  let c ← classNamed name expr
  return match c.superclass? with
    | some parent => .ofClass parent
    | none => .null

/-- The type of a field of an object. -/
def fieldType (object : Ty) (field : String) (expr : Datum) : CheckM Ty := do
  match object.class? with
  | none => reject (.notAClass object.name expr)
  | some c =>
      match (← context).member? c.fields field with
      | some t => return t
      | none => reject (.unknownField c.name field expr)

/-- The member that makes the objects of a class. -/
def constructorName : String := "constructor"

/-- A class and the signature of its constructor. -/
def constructorOf (className : String) (expr : Datum) : CheckM (ClassTy × Signature) := do
  let c ← classNamed className expr
  match ((← context).member? c.fields constructorName).bind Ty.signature? with
  | some s => return (c, s)
  | none => reject (.missingConstructor className expr)

def acceptEach (expr : Datum) : List Ty → List (Datum × Ty) → CheckM Unit
  | param :: params, (arg, t) :: args => do
      unless param.isAny do
        expect t param arg expr
      acceptEach expr params args
  | _, _ => return

/-- Check arguments against a signature: their number first, then each in turn. A parameter declared
`any` takes every argument. -/
def acceptArguments (s : Signature) (callee : String) (args : List (Datum × Ty)) (expr : Datum) :
    CheckM Unit := do
  if s.arity ≠ args.length then
    reject (.arityMismatch callee s.arity args.length expr)
  else
    acceptEach expr s.params args

end CheckM

end TypedLisp
