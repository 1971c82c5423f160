import TypedLisp.Datum.Printer
import TypedLisp.Form.Classify

namespace TypedLisp

inductive TypeError where
  | undefinedName (name : String) (expr : Datum)
  | duplicateType (name existing : String) (expr : Datum)
  | unknownBaseType (name : String) (expr : Datum)
  | unknownType (name : String) (expr : Datum)
  | malformedType (text : String) (reason : TypeExpr.Reason) (expr : Datum)
  | arityMismatch (callee : String) (expected found : Nat) (expr : Datum)
  | typeMismatch (expected actual : String) (expr context : Datum)
  | unknownOperator (op : String) (expr : Datum)
  | missingActualTypes (callee : String) (expr : Datum)
  | unknownClass (name : String) (expr : Datum)
  | missingConstructor (className : String) (expr : Datum)
  | notCallable (type : String) (expr : Datum)
  | notAClass (type : String) (expr : Datum)
  | unknownField (className field : String) (expr : Datum)
  | malformedForm (form : String) (fault : ShapeFault) (expr : Datum)

namespace TypeError

/-- The expression an error is about. -/
def expr : TypeError → Datum
  | undefinedName _ e | duplicateType _ _ e | unknownBaseType _ e | unknownType _ e
  | malformedType _ _ e | arityMismatch _ _ _ e | typeMismatch _ _ e _ | unknownOperator _ e
  | missingActualTypes _ e | unknownClass _ e | missingConstructor _ e | notCallable _ e
  | notAClass _ e | unknownField _ _ e | malformedForm _ _ e => e

/-- The kind of an error in words. -/
def description : TypeError → String
  | undefinedName _ _ => "undefined name"
  | duplicateType _ _ _ => "duplicate type declaration"
  | unknownBaseType _ _ => "unknown base type"
  | unknownType _ _ => "unknown type"
  | malformedType _ _ _ => "invalid type annotation"
  | arityMismatch _ _ _ _ => "arity mismatch"
  | typeMismatch _ _ _ _ => "type mismatch"
  | unknownOperator _ _ => "unknown operator"
  | missingActualTypes _ _ => "missing generic actual types"
  | unknownClass _ _ => "unknown class"
  | missingConstructor _ _ => "missing constructor"
  | notCallable _ _ => "not callable"
  | notAClass _ _ => "not a class"
  | unknownField _ _ _ => "unknown field"
  | malformedForm _ _ _ => "malformed form"

def message : TypeError → String
  | undefinedName name _ => s!"variable \"{name}\" is not defined"
  | duplicateType name existing _ => s!"type \"{name}\" is already defined as \"{existing}\""
  | unknownBaseType name e => s!"base type \"{name}\" is not defined in {e.shown}"
  | unknownType name e => s!"type \"{name}\" is not defined in {e.shown}"
  | malformedType text reason _ => s!"invalid type annotation \"{text}\": {reason.message}"
  | arityMismatch callee expected found e =>
      s!"\"{callee}\" expects {expected} argument(s), {found} given in {e.shown}"
  | typeMismatch expected actual e context =>
      s!"expected \"{expected}\" type for {e.shown} in {context.shown}, but got \"{actual}\""
  | unknownOperator op _ => s!"unknown operator \"{op}\""
  | missingActualTypes callee e =>
      s!"generic function \"{callee}\" called without actual types in {e.shown}"
  | unknownClass name _ => s!"class \"{name}\" is not defined"
  | missingConstructor className _ => s!"class \"{className}\" has no constructor"
  | notCallable type e => s!"value of type \"{type}\" is not callable in {e.shown}"
  | notAClass type e => s!"type \"{type}\" is not a class in {e.shown}"
  | unknownField className field _ => s!"class \"{className}\" has no field \"{field}\""
  | malformedForm form fault e => s!"malformed {form}: {fault.message} in {e.shown}"

end TypeError

end TypedLisp
