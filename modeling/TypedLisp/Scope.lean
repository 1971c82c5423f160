import TypedLisp.Interner

/-!
Scopes. They live in an arena and are never closed; a scope may link to a parent, whose bindings
it shares, and to an outer scope, which is searched only after the whole chain of parents. Links
lead to scopes opened earlier.
-/

namespace TypedLisp

structure ScopeId where
  index : Nat
  deriving DecidableEq

def ScopeId.shown (s : ScopeId) : String :=
  s!"scope#{s.index}"

structure Scope (α : Type) where
  bindings : Std.TreeMap Symbol α := {}
  parent : Option ScopeId := none
  outer : Option ScopeId := none

/-- All scopes ever opened, the global one first. -/
structure Arena (α : Type) where
  scopes : Array (Scope α) := #[{}]

namespace Arena

variable {α : Type}

def empty : Arena α := {}

/-- The scope around all others. -/
def global : ScopeId := ⟨0⟩

def size (a : Arena α) : Nat :=
  a.scopes.size

def openScope (a : Arena α) (scope : Scope α) : ScopeId × Arena α :=
  (⟨a.scopes.size⟩, ⟨a.scopes.push scope⟩)

def child (a : Arena α) (parent : ScopeId) : ScopeId × Arena α :=
  a.openScope { parent := some parent }

/-- A scope without parent: member lookups end here. -/
def detached (a : Arena α) (outer : Option ScopeId) : ScopeId × Arena α :=
  a.openScope { outer }

/-- The table of a class's members: after it come the tables of its superclasses, and around them
all the scope of the declaration. -/
def memberTable (a : Arena α) (parent : Option ScopeId) (outer : ScopeId) : ScopeId × Arena α :=
  a.openScope { parent, outer := some outer }

def define (a : Arena α) (s : ScopeId) (name : Symbol) (value : α) : Arena α :=
  ⟨a.scopes.modify s.index fun scope =>
    { scope with bindings := scope.bindings.insert name value }⟩

/-- The value a scope itself binds to a name. -/
def binding? (a : Arena α) (s : ScopeId) (name : Symbol) : Option α :=
  a.scopes[s.index]?.bind fun scope => scope.bindings[name]?

def parent? (a : Arena α) (s : ScopeId) : Option ScopeId :=
  a.scopes[s.index]?.bind Scope.parent

def outer? (a : Arena α) (s : ScopeId) : Option ScopeId :=
  a.scopes[s.index]?.bind Scope.outer

theorem binding?_define (a : Arena α) (s q : ScopeId) (name other : Symbol) (value : α)
    (hs : s.index < a.size) :
    (a.define s name value).binding? q other =
      if s = q ∧ name = other then some value else a.binding? q other := by
  have hget : a.scopes[s.index]? = some a.scopes[s.index] := Array.getElem?_eq_getElem hs
  by_cases hq : s = q
  · subst hq
    simp [binding?, define, Array.getElem?_modify, hget, Std.TreeMap.getElem?_insert]
  · have hindex : ¬s.index = q.index := fun h => hq (by cases s; cases q; simp_all)
    simp [binding?, define, Array.getElem?_modify, hq, hindex]

theorem parent?_define (a : Arena α) (s q : ScopeId) (name : Symbol) (value : α) :
    (a.define s name value).parent? q = a.parent? q := by
  simp only [parent?, define, Array.getElem?_modify]
  split
  · cases a.scopes[q.index]? <;> rfl
  · rfl

theorem outer?_define (a : Arena α) (s q : ScopeId) (name : Symbol) (value : α) :
    (a.define s name value).outer? q = a.outer? q := by
  simp only [outer?, define, Array.getElem?_modify]
  split
  · cases a.scopes[q.index]? <;> rfl
  · rfl

/-- A scope and its parents, nearest first. -/
def parentChain (a : Arena α) (s : ScopeId) : List ScopeId :=
  match a.parent? s with
  | none => [s]
  | some p => if p.index < s.index then s :: parentChain a p else [s]
termination_by s.index

/-- The outer link that the chain of parents meets first. -/
def nearestOuter? (a : Arena α) (s : ScopeId) : Option ScopeId :=
  (a.parentChain s).findSome? a.outer?

/-- The scopes seen from a scope, in the order in which they are searched: the chain of parents,
then all that is seen from the nearest outer scope. -/
def searchOrder (a : Arena α) (s : ScopeId) : List ScopeId :=
  a.parentChain s ++
    match a.nearestOuter? s with
    | none => []
    | some o => if o.index < s.index then searchOrder a o else []
termination_by s.index

/-- The scope that owns a name as seen from a scope. -/
def owner? (a : Arena α) (s : ScopeId) (name : Symbol) : Option ScopeId :=
  (a.searchOrder s).find? fun q => (a.binding? q name).isSome

def lookup? (a : Arena α) (s : ScopeId) (name : Symbol) : Option α :=
  (a.searchOrder s).findSome? fun q => a.binding? q name

/-- Look a member up along the chain of parents only. -/
def member? (a : Arena α) (s : ScopeId) (name : Symbol) : Option α :=
  (a.parentChain s).findSome? fun q => a.binding? q name

end Arena

end TypedLisp
