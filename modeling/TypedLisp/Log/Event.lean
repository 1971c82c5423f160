import TypedLisp.Datum.Printer
import TypedLisp.Log.Logger
import TypedLisp.Ty.Basic

namespace TypedLisp

inductive Event where
  | preludeInstalled (count : Nat)
  | checking (expr : Datum) (scope : ScopeId)
  | narrowing (name : String) (type : Ty)
  | templateDeclared (template : Ty)
  | functionDeclared (name : String) (type : Ty)
  | typeDeclared (type : Ty) (name : String)
  | classDeclared (name superclass : String)
  | instantiated (template : Template) (signature : Signature)
  | programStarted (count : Nat)
  | topLevelTyped (type : Ty)
  | levelIgnored (error : InvalidLevel)

namespace Event

def level : Event → Level
  | levelIgnored _ => .warn
  | programStarted _ => .info
  | checking _ _ | narrowing _ _ => .trace
  | _ => .debug

/-- The part of the checker an event comes from. -/
def target : Event → String
  | preludeInstalled _ => "tyl_typecheck::check::context"
  | checking _ _ | narrowing _ _ => "tyl_typecheck::check::expr"
  | templateDeclared _ | functionDeclared _ _ | typeDeclared _ _ | classDeclared _ _ =>
      "tyl_typecheck::check::decl"
  | instantiated _ _ => "tyl_typecheck::check::call"
  | programStarted _ | topLevelTyped _ | levelIgnored _ => "tyl_typecheck::checker"

def message : Event → String
  | preludeInstalled count => s!"installed {count} prelude bindings"
  | checking expr scope => s!"tc {expr.shown} in {scope.shown}"
  | narrowing name type => s!"narrowing {name} to {type.name}"
  | templateDeclared template => s!"declared generic function {template.name}"
  | functionDeclared name type => s!"declared function {name}: {type.name}"
  | typeDeclared type name => s!"declared {type.kind} {name}"
  | classDeclared name superclass => s!"declared class {name} extends {superclass}"
  | instantiated template signature => s!"instantiated {template.shown} as {signature.name}"
  | programStarted count => s!"checking {count} top-level expressions"
  | topLevelTyped type => s!"top-level expression has type {type.name}"
  | levelIgnored error => s!"ignoring {Logger.levelVariable}: {error.message}"

def toRecord (e : Event) : Record :=
  ⟨e.level, e.target, e.message⟩

end Event

end TypedLisp
