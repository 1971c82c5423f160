import TypedLisp.Datum.Basic
import TypedLisp.Scope
import TypedLisp.TypeExpr.Basic

namespace TypedLisp

inductive Primitive where
  | number
  | string
  | boolean
  | null
  | any
  deriving DecidableEq

namespace Primitive

def all : List Primitive := [number, string, boolean, null, any]

def name : Primitive → String
  | number => "number"
  | string => "string"
  | boolean => "boolean"
  | null => "null"
  | any => "any"

def ofName? (text : String) : Option Primitive :=
  all.find? fun p => p.name == text

end Primitive

/-- A declared class, known by the table of its members. -/
structure ClassRow where
  name : String
  fields : ScopeId
  deriving DecidableEq

/-- A class and the classes it inherits from, nearest first. -/
structure ClassTy where
  row : ClassRow
  ancestors : List ClassRow
  deriving DecidableEq

namespace ClassTy

def name (c : ClassTy) : String := c.row.name

def fields (c : ClassTy) : ScopeId := c.row.fields

def superclass? (c : ClassTy) : Option ClassTy :=
  match c.ancestors with
  | [] => none
  | row :: ancestors => some ⟨row, ancestors⟩

/-- A new class below a superclass, or a root class. -/
def extending (name : String) (fields : ScopeId) : Option ClassTy → ClassTy
  | none => ⟨⟨name, fields⟩, []⟩
  | some parent => ⟨⟨name, fields⟩, parent.row :: parent.ancestors⟩

/-- A class inherits from itself and from its ancestors. -/
def inherits (c d : ClassTy) : Bool :=
  (c.row :: c.ancestors).any fun row => row.fields == d.fields

end ClassTy

/-- A generic function: its written types and its body wait for actual types. A template is told
apart from others by how many were made before it. -/
structure Template where
  serial : Nat
  name : String
  typeParams : List String
  params : List (Symbol × TypeExpr)
  result : TypeExpr
  body : Datum
  closure : ScopeId

namespace Template

/-- Ids have 32 bits, so after as many templates they start again. -/
def idCount : Nat := 4294967296

def idOf (serial : Nat) : Nat := serial % idCount

/-- The number that instances of a template are recorded under. -/
def id (t : Template) : Nat := idOf t.serial

theorem id_le (t : Template) : t.id ≤ t.serial :=
  Nat.mod_le _ _

theorem id_eq_serial {t : Template} (h : t.serial < idCount) : t.id = t.serial :=
  Nat.mod_eq_of_lt h

def shown (t : Template) : String :=
  t.name ++ " <" ++ String.intercalate "," t.typeParams ++ ">"

end Template

/-- A union is told apart from others by the number given at its declaration. -/
inductive Ty where
  | primitive (p : Primitive)
  | function (params : List Ty) (result : Ty)
  | aliasOf (name : String) (parent : Ty)
  | union (id : Nat) (name : String) (options : List Ty)
  | ofClass (c : ClassTy)
  | template (t : Template)

/-- The parameter types and the result type of a function. -/
structure Signature where
  params : List Ty
  result : Ty

namespace Ty

def number : Ty := primitive .number
def string : Ty := primitive .string
def boolean : Ty := primitive .boolean
def null : Ty := primitive .null
def any : Ty := primitive .any

instance : Inhabited Ty := ⟨null⟩

mutual

/-- The canonical name: the declared name, or the written form of a function type. -/
def name : Ty → String
  | primitive p => p.name
  | function params result => TypeExpr.functionText (nameEach params) (name result)
  | aliasOf n _ => n
  | union _ n _ => n
  | ofClass c => c.name
  | template t => t.shown

def nameEach : List Ty → List String
  | [] => []
  | t :: ts => name t :: nameEach ts

end

theorem nameEach_eq_map (ts : List Ty) : nameEach ts = ts.map name := by
  induction ts with
  | nil => rw [nameEach, List.map_nil]
  | cons t ts ih => rw [nameEach, List.map_cons, ih]

def kind : Ty → String
  | primitive _ => "primitive"
  | function _ _ => "function"
  | aliasOf _ _ => "alias"
  | union _ _ _ => "union"
  | ofClass _ => "class"
  | template _ => "generic function"

def isAny : Ty → Bool
  | primitive .any => true
  | _ => false

/-- The class behind a type, through aliases. -/
def class? : Ty → Option ClassTy
  | ofClass c => some c
  | aliasOf _ parent => parent.class?
  | _ => none

/-- The signature behind a type, through aliases. -/
def signature? : Ty → Option Signature
  | function params result => some ⟨params, result⟩
  | aliasOf _ parent => parent.signature?
  | _ => none

end Ty

namespace Signature

def toTy (s : Signature) : Ty := .function s.params s.result

def name (s : Signature) : String := s.toTy.name

def arity (s : Signature) : Nat := s.params.length

end Signature

end TypedLisp
