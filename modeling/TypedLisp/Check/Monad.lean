import TypedLisp.Context
import TypedLisp.Log.Event
import TypedLisp.TypeError

namespace TypedLisp

/-- Why a check ends without a type: the program is rejected, or the bodies of templates are nested
deeper than allowed. -/
inductive Halt where
  | rejected (error : TypeError)
  | tooDeep

structure Session where
  context : Context
  events : Array Event := #[]

abbrev CheckM := ExceptT Halt (StateM Session)

namespace CheckM

def reject {α : Type} (e : TypeError) : CheckM α :=
  throw (.rejected e)

def emit (e : Event) : CheckM Unit :=
  modify fun s => { s with events := s.events.push e }

def context : CheckM Context := do
  return (← get).context

/-- Change the context, with a result. -/
def change {α : Type} (f : Context → α × Context) : CheckM α :=
  modifyGet fun s =>
    let (a, context) := f s.context
    (a, { s with context })

def update (f : Context → Context) : CheckM Unit :=
  modify fun s => { s with context := f s.context }

/-- Bind a name in a scope; the result is the type bound. -/
def define (scope : ScopeId) (name : String) (t : Ty) : CheckM Ty := do
  update fun c => c.define scope name t
  return t

def lookup (scope : ScopeId) (name : String) (expr : Datum) : CheckM Ty := do
  match (← context).lookup? scope name with
  | some t => return t
  | none => reject (.undefinedName name expr)

end CheckM

end TypedLisp
