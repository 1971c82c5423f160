import Std.Data.TreeMap

namespace TypedLisp

structure Symbol where
  index : Nat
  deriving DecidableEq

namespace Symbol

def shown (s : Symbol) : String :=
  s!"Symbol({s.index})"

instance : Ord Symbol where
  compare := compareOn index

instance : Std.TransOrd Symbol :=
  inferInstanceAs (Std.TransCmp (compareOn index))

instance : Std.LawfulEqOrd Symbol where
  eq_of_compare {a b} h := by
    cases a
    cases b
    cases Std.LawfulEqOrd.eq_of_compare (α := Nat) h
    rfl

end Symbol

/-- The symbols by name, and the names interned so far by symbol. -/
structure Interner where
  symbols : Std.TreeMap String Symbol := {}
  names : Array String := #[]
  agree : ∀ (name : String) (s : Symbol),
    symbols[name]? = some s ↔ names[s.index]? = some name := by simp

namespace Interner

def empty : Interner := {}

def size (i : Interner) : Nat :=
  i.names.size

def get? (i : Interner) (name : String) : Option Symbol :=
  i.symbols[name]?

def resolve? (i : Interner) (s : Symbol) : Option String :=
  i.names[s.index]?

theorem get?_eq_some_iff {i : Interner} {name : String} {s : Symbol} :
    i.get? name = some s ↔ i.resolve? s = some name :=
  i.agree name s

/-- Give a new name the next symbol. -/
def add (i : Interner) (name : String) (h : i.get? name = none) : Interner where
  symbols := i.symbols.insert name ⟨i.names.size⟩
  names := i.names.push name
  agree other s := by
    have hsize : i.names[i.names.size]? = none := Array.getElem?_size
    rw [Std.TreeMap.getElem?_insert, Array.getElem?_push]
    by_cases hs : s.index = i.names.size
    · have hnew : s = ⟨i.names.size⟩ := by
        cases s
        cases hs
        rfl
      have hold : i.symbols[other]? ≠ some s := by
        rw [Ne, i.agree, hs, hsize]
        simp
      by_cases hname : name = other <;> simp_all
    · have hother : (⟨i.names.size⟩ : Symbol) ≠ s := by
        rintro rfl
        exact hs rfl
      by_cases hname : name = other
      · subst hname
        have hnone : i.symbols[name]? = none := h
        simp [hs, hother, ← i.agree, hnone]
      · simp [hs, hname, i.agree]

/-- The symbol of a name, which is new if the name is. -/
def intern (i : Interner) (name : String) : Symbol × Interner :=
  match h : i.get? name with
  | some s => (s, i)
  | none => (⟨i.names.size⟩, i.add name h)

theorem intern_of_get? {i : Interner} {name : String} {s : Symbol} (h : i.get? name = some s) :
    i.intern name = (s, i) := by
  unfold intern
  split
  · simp_all
  · simp_all

theorem intern_of_get?_none {i : Interner} {name : String} (h : i.get? name = none) :
    i.intern name = (⟨i.names.size⟩, i.add name h) := by
  unfold intern
  split
  · simp_all
  · rfl

theorem resolve?_intern (i : Interner) (name : String) :
    (i.intern name).2.resolve? (i.intern name).1 = some name := by
  cases h : i.get? name with
  | some s =>
      rw [intern_of_get? h]
      exact get?_eq_some_iff.mp h
  | none =>
      rw [intern_of_get?_none h]
      simp [resolve?, add]

theorem resolve?_intern_of_resolve? {i : Interner} {s : Symbol} {old : String} (name : String)
    (h : i.resolve? s = some old) : (i.intern name).2.resolve? s = some old := by
  cases hn : i.get? name with
  | some _ =>
      rw [intern_of_get? hn]
      exact h
  | none =>
      rw [intern_of_get?_none hn]
      have hlt : s.index < i.names.size := (Array.getElem?_eq_some_iff.mp h).1
      show (i.names.push name)[s.index]? = some old
      rw [Array.getElem?_push, if_neg (Nat.ne_of_lt hlt)]
      exact h

end Interner

end TypedLisp
