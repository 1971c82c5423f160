import TypedLisp.Number.Binary64

namespace TypedLisp

inductive Datum where
  | number (value : Binary64)
  | text (value : String)
  | boolean (value : Bool)
  | symbol (name : String)
  | list (items : List Datum)
  deriving Inhabited

namespace Datum

def isAtom : Datum → Bool
  | list _ => false
  | _ => true

def symbol? : Datum → Option String
  | symbol name => some name
  | _ => none

def items? : Datum → Option (List Datum)
  | list items => some items
  | _ => none

/-- The symbol at the head of a list. -/
def tag? : Datum → Option String
  | list (symbol name :: _) => some name
  | _ => none

mutual

/-- Equality by value, where numbers are compared as numbers. -/
def valueEq : Datum → Datum → Bool
  | number x, number y => x.numericEq y
  | text s, text t => s == t
  | boolean a, boolean b => a == b
  | symbol m, symbol n => m == n
  | list xs, list ys => valuesEq xs ys
  | _, _ => false

def valuesEq : List Datum → List Datum → Bool
  | [], [] => true
  | x :: xs, y :: ys => valueEq x y && valuesEq xs ys
  | _, _ => false

end

theorem sizeOf_lt_of_mem {d : Datum} {items : List Datum} (h : d ∈ items) :
    sizeOf d < sizeOf (list items) := by
  have := List.sizeOf_lt_of_mem h
  simp only [list.sizeOf_spec]
  omega

/-- Induction into the items of lists. -/
@[elab_as_elim]
theorem inductionInto {motive : Datum → Prop} (number : ∀ x, motive (.number x))
    (text : ∀ s, motive (.text s)) (boolean : ∀ b, motive (.boolean b))
    (symbol : ∀ name, motive (.symbol name))
    (list : ∀ items, (∀ d ∈ items, motive d) → motive (.list items)) : ∀ d, motive d
  | .number x => number x
  | .text s => text s
  | .boolean b => boolean b
  | .symbol name => symbol name
  | .list items => list items fun d _ => inductionInto number text boolean symbol list d

theorem one_lt_sizeOf (d : Datum) : 1 < sizeOf d := by
  have string_pos (s : String) : 0 < sizeOf s := by
    cases s
    simp only [String.ofByteArray.sizeOf_spec]
    omega
  cases d with
  | number x =>
      cases x
      simp only [number.sizeOf_spec, Binary64.mk.sizeOf_spec]
      omega
  | text s =>
      have := string_pos s
      simp only [text.sizeOf_spec]
      omega
  | boolean b => simp
  | symbol s =>
      have := string_pos s
      simp only [symbol.sizeOf_spec]
      omega
  | list items =>
      cases items
      · simp
      · simp only [list.sizeOf_spec, List.cons.sizeOf_spec]
        omega

theorem sizeOf_lt_of_suffix {rest items : List Datum} (h : rest <:+ items) :
    sizeOf rest < sizeOf (list items) := by
  obtain ⟨before, rfl⟩ := h
  induction before with
  | nil => simp
  | cons d before ih =>
      simp only [list.sizeOf_spec, List.cons_append, List.cons.sizeOf_spec] at ih ⊢
      omega

end Datum

end TypedLisp
