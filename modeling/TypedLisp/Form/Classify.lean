import TypedLisp.Form.Basic

namespace TypedLisp

/-- How a list fails to be the form its head announces. -/
inductive ShapeFault where
  | emptyList
  | varShape
  | varPair
  | varName
  | setShape
  | setTarget
  | condShape
  | loopShape
  | defineShape
  | functionName
  | functionShape
  | expectedArrow
  | resultType
  | paramsNotList
  | paramShape
  | typeShape
  | typeName
  | typeBase
  | unionOption
  | classShape
  | className
  | superclassName
  | newShape
  | superShape
  | propShape
  | fieldName
  | onlyInDeclaration
  | notGeneric
  deriving DecidableEq

def ShapeFault.message : ShapeFault → String
  | emptyList => "empty list is not an expression"
  | varShape => "expected (var name value)"
  | varPair => "expected (name Type)"
  | varName => "variable name must be a symbol"
  | setShape => "expected (set target value)"
  | setTarget => "target must be a name or (prop instance field)"
  | condShape => "expected (if cond then else)"
  | loopShape => "expected (while cond body)"
  | defineShape => "expected (def name params -> ret body)"
  | functionName => "function name must be a symbol"
  | functionShape => "expected params -> ret body"
  | expectedArrow => "expected '->' before the return type"
  | resultType => "return type must be a type annotation"
  | paramsNotList => "parameters must be a list"
  | paramShape => "each parameter must be (name Type)"
  | typeShape => "expected (type Name Base)"
  | typeName => "type name must be a symbol"
  | typeBase => "expected a type or (or T1 T2 ...)"
  | unionOption => "union options must be type names"
  | classShape => "expected (class Name Super body)"
  | className => "class name must be a symbol"
  | superclassName => "superclass must be a symbol"
  | newShape => "expected (new Class args...)"
  | superShape => "expected (super Class)"
  | propShape => "expected (prop instance field)"
  | fieldName => "field name must be a symbol"
  | onlyInDeclaration => "only valid inside a declaration"
  | notGeneric => "type arguments given to a non-generic function"

/-- A fault and the head of the list it is found in. -/
structure Misshapen where
  form : String
  fault : ShapeFault
  deriving DecidableEq

namespace Form

/-- Split off a type list at the front. -/
def splitTypeList : List Datum → Option String × List Datum
  | .symbol s :: rest =>
      if TypeExpr.isTypeList s then (some s, rest) else (none, .symbol s :: rest)
  | items => (none, items)

def varForm : List Datum → Except ShapeFault Form
  | [.symbol n, value] => .ok (.var n none value)
  | [.list [.symbol n, .symbol t], value] => .ok (.var n (some t) value)
  | [.list _, _] => .error .varPair
  | [_, _] => .error .varName
  | _ => .error .varShape

def setForm : List Datum → Except ShapeFault Form
  | [.symbol n, value] => .ok (.assign (.name n) value)
  | [.list [.symbol tag, object, .symbol field], value] =>
      if tag = "prop" then .ok (.assign (.field object field) value) else .error .setTarget
  | [_, _] => .error .setTarget
  | _ => .error .setShape

def readParams : List Datum → Except ShapeFault (List Param)
  | [] => .ok []
  | .list [.symbol n, .symbol t] :: rest => do
      let params ← readParams rest
      .ok (⟨n, t⟩ :: params)
  | _ => .error .paramShape

/-- Faults are reported from the arrow on, the parameters last. -/
def functionParts : List Datum → Except ShapeFault FunctionParts
  | [params, arrow, result, body] =>
      if arrow.symbol? ≠ some "->" then .error .expectedArrow
      else
        match result, params with
        | .symbol r, .list items => do
            let params ← readParams items
            .ok ⟨params, r, body⟩
        | .symbol _, _ => .error .paramsNotList
        | _, _ => .error .resultType
  | _ => .error .functionShape

def defineForm : List Datum → Except ShapeFault Form
  | .symbol n :: rest => do
      let (typeParams, tail) := splitTypeList rest
      let parts ← functionParts tail
      .ok (.define n typeParams parts)
  | _ :: _ => .error .functionName
  | [] => .error .defineShape

def lambdaForm (rest : List Datum) : Except ShapeFault Form := do
  let (typeParams, tail) := splitTypeList rest
  let parts ← functionParts tail
  .ok (.lambda typeParams parts)

def readOptions : List Datum → Except ShapeFault (List String)
  | [] => .ok []
  | .symbol s :: rest => do
      let options ← readOptions rest
      .ok (s :: options)
  | _ => .error .unionOption

def typeForm : List Datum → Except ShapeFault Form
  | [.symbol n, .symbol base] => .ok (.typeDecl n (.aliasOf base))
  | [.symbol n, .list (.symbol tag :: option :: options)] =>
      if tag = "or" then do
        let options ← readOptions (option :: options)
        .ok (.typeDecl n (.union options))
      else .error .typeBase
  | [.symbol _, _] => .error .typeBase
  | [_, _] => .error .typeName
  | _ => .error .typeShape

def classForm : List Datum → Except ShapeFault Form
  | [.symbol n, .symbol superclass, body] => .ok (.classDecl n superclass body)
  | [.symbol _, _, _] => .error .superclassName
  | [_, _, _] => .error .className
  | _ => .error .classShape

def newForm : List Datum → Except ShapeFault Form
  | .symbol c :: args => .ok (.new c args)
  | _ :: _ => .error .className
  | [] => .error .newShape

def superForm : List Datum → Except ShapeFault Form
  | [.symbol c] => .ok (.super c)
  | [_] => .error .className
  | _ => .error .superShape

def propForm : List Datum → Except ShapeFault Form
  | [object, .symbol field] => .ok (.prop object field)
  | [_, _] => .error .fieldName
  | _ => .error .propShape

def condForm : List Datum → Except ShapeFault Form
  | [condition, whenTrue, whenFalse] => .ok (.cond condition whenTrue whenFalse)
  | _ => .error .condShape

def loopForm : List Datum → Except ShapeFault Form
  | [condition, body] => .ok (.loop condition body)
  | _ => .error .loopShape

def ofKeyword : Keyword → List Datum → Except ShapeFault Form
  | .var, rest => varForm rest
  | .set, rest => setForm rest
  | .begin, rest => .ok (.block rest)
  | .cond, rest => condForm rest
  | .loop, rest => loopForm rest
  | .define, rest => defineForm rest
  | .lambda, rest => lambdaForm rest
  | .typeDecl, rest => typeForm rest
  | .classDecl, rest => classForm rest
  | .new, rest => newForm rest
  | .super, rest => superForm rest
  | .prop, rest => propForm rest
  | .or, _ => .error .onlyInDeclaration
  | .arrow, _ => .error .onlyInDeclaration

/-- A call, with a type list if one follows the head. -/
def plainCall (head : Datum) (rest : List Datum) : Form :=
  let (typeArgs, args) := splitTypeList rest
  .call (.plain head typeArgs) args

/-- A list headed by a symbol. Operators come before keywords, and keywords before calls. -/
def ofTagged (tag : String) (rest : List Datum) : Except Misshapen Form :=
  match Operator.ofText? tag with
  | some op => .ok (.binary op rest)
  | none =>
      match Keyword.ofText? tag with
      | some k => (ofKeyword k rest).mapError (Misshapen.mk k.text)
      | none =>
          match Word.splitFused? tag with
          | some (n, typeArgs) => .ok (.call (.fused n typeArgs) rest)
          | none => .ok (plainCall (.symbol tag) rest)

def classify : Datum → Except Misshapen Form
  | .number x => .ok (.number x)
  | .text s => .ok (.text s)
  | .boolean b => .ok (.boolean b)
  | .symbol n => .ok (.name n)
  | .list [] => .error ⟨"()", .emptyList⟩
  | .list (.symbol tag :: rest) => ofTagged tag rest
  | .list (head :: rest) => .ok (plainCall head rest)

theorem classify_begin (items : List Datum) :
    classify (.list (.symbol Keyword.begin.text :: items)) = .ok (.block items) := rfl

end Form

end TypedLisp
