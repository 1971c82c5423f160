import TypedLisp.Options
import TypedLisp.Registry

namespace TypedLisp

/-- The id of a template and the canonical names of the actual types it is instantiated at. -/
structure InstanceKey where
  template : Nat
  actuals : List String
  deriving DecidableEq

namespace InstanceKey

instance : Ord InstanceKey where
  compare := compareLex (compareOn template) (compareOn actuals)

instance : Std.TransOrd InstanceKey :=
  inferInstanceAs (Std.TransCmp (compareLex (compareOn template) (compareOn actuals)))

instance : Std.LawfulEqOrd InstanceKey where
  eq_of_compare {a b} h := by
    obtain ⟨htemplate, hactuals⟩ := compareLex_eq_eq.mp h
    cases a
    cases b
    cases Std.LawfulEqOrd.eq_of_compare htemplate
    cases Std.LawfulEqOrd.eq_of_compare hactuals
    rfl

end InstanceKey

structure Context where
  options : Options
  interner : Interner
  scopes : Arena Ty
  registry : Registry
  instances : Std.TreeMap InstanceKey Signature := {}
  nextTemplate : Nat := 0

namespace Context

def intern (c : Context) (name : String) : Symbol × Context :=
  let (s, interner) := c.interner.intern name
  (s, { c with interner })

/-- Bind a symbol in a scope. -/
def bind (c : Context) (scope : ScopeId) (s : Symbol) (t : Ty) : Context :=
  { c with scopes := c.scopes.define scope s t }

/-- Bind a name in a scope. -/
def define (c : Context) (scope : ScopeId) (name : String) (t : Ty) : Context :=
  let (s, c) := c.intern name
  c.bind scope s t

def lookup? (c : Context) (scope : ScopeId) (name : String) : Option Ty :=
  (c.interner.get? name).bind (c.scopes.lookup? scope)

def member? (c : Context) (fields : ScopeId) (name : String) : Option Ty :=
  (c.interner.get? name).bind (c.scopes.member? fields)

/-- The scope that owns a name as seen from a scope. -/
def owner? (c : Context) (scope : ScopeId) (name : String) : Option ScopeId :=
  (c.interner.get? name).bind (c.scopes.owner? scope)

def registered? (c : Context) (name : String) : Option Ty :=
  (c.interner.get? name).bind c.registry.get?

/-- Register a declared type; a name already taken is refused with the type that has it. -/
def declare (c : Context) (name : String) (t : Ty) : Option Ty × Context :=
  let (s, c) := c.intern name
  match c.registry.declare s t with
  | .ok registry => (none, { c with registry })
  | .error existing => (some existing, c)

/-- Register a type unless the name is taken; the result is the registered type. -/
def cache (c : Context) (name : String) (t : Ty) : Ty × Context :=
  let (s, c) := c.intern name
  let (t, registry) := c.registry.cache s t
  (t, { c with registry })

def child (c : Context) (parent : ScopeId) : ScopeId × Context :=
  let (s, scopes) := c.scopes.child parent
  (s, { c with scopes })

def memberTable (c : Context) (parent : Option ScopeId) (outer : ScopeId) : ScopeId × Context :=
  let (s, scopes) := c.scopes.memberTable parent outer
  (s, { c with scopes })

/-- The serial number of a template to be made. It tells the template from all others, which its id
does only as long as ids last. -/
def newTemplate (c : Context) : Nat × Context :=
  (c.nextTemplate, { c with nextTemplate := c.nextTemplate + 1 })

def instance? (c : Context) (key : InstanceKey) : Option Signature :=
  c.instances[key]?

def record (c : Context) (key : InstanceKey) (signature : Signature) : Context :=
  { c with instances := c.instances.insert key signature }

def forget (c : Context) (key : InstanceKey) : Context :=
  { c with instances := c.instances.erase key }

theorem instance?_record (c : Context) (key other : InstanceKey) (signature : Signature) :
    (c.record key signature).instance? other =
      if key = other then some signature else c.instance? other := by
  simp [instance?, record, Std.TreeMap.getElem?_insert]

theorem instance?_forget (c : Context) (key other : InstanceKey) :
    (c.forget key).instance? other = if key = other then none else c.instance? other := by
  simp [instance?, forget, Std.TreeMap.getElem?_erase]

/-- The names every program can use, unless it is told otherwise. -/
def prelude : List (String × Ty) :=
  [("VERSION", .string),
    ("sum", .function [.number, .number] .number),
    ("square", .function [.number] .number),
    ("typeof", .function [.any] .string)]

/-- A context with the primitives only. -/
def bare (options : Options) : Context :=
  let (registry, interner) := Registry.primitives .empty
  { options, interner, registry, scopes := .empty }

def new (options : Options) : Context :=
  if options.prelude then
    prelude.foldl (fun c (name, t) => c.define Arena.global name t) (bare options)
  else
    bare options

end Context

end TypedLisp
