import TypedLisp.Ty.Basic

namespace TypedLisp

structure Registry where
  types : Std.TreeMap Symbol Ty

namespace Registry

/-- The registry of the primitives, with their names interned. -/
def primitives (i : Interner) : Registry × Interner :=
  Primitive.all.foldl
    (fun (r, i) p =>
      let (s, i) := i.intern p.name
      (⟨r.types.insert s (.primitive p)⟩, i))
    (⟨{}⟩, i)

def size (r : Registry) : Nat :=
  r.types.size

def get? (r : Registry) (name : Symbol) : Option Ty :=
  r.types[name]?

/-- Register a declared type; a name already taken is refused with the type that has it. -/
def declare (r : Registry) (name : Symbol) (t : Ty) : Except Ty Registry :=
  match r.get? name with
  | some existing => .error existing
  | none => .ok ⟨r.types.insert name t⟩

/-- Register a type unless the name is taken; the result is the registered type. -/
def cache (r : Registry) (name : Symbol) (t : Ty) : Ty × Registry :=
  match r.get? name with
  | some existing => (existing, r)
  | none => (t, ⟨r.types.insert name t⟩)

end Registry

end TypedLisp
