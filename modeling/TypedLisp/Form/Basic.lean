import TypedLisp.Datum.Basic
import TypedLisp.Form.Word

namespace TypedLisp

/-- A parameter and its written type. -/
structure Param where
  name : String
  typeText : String

/-- What follows the name of a function: `params -> result body`. -/
structure FunctionParts where
  params : List Param
  resultText : String
  body : Datum

/-- What an assignment sets: a name, or a field of an object. -/
inductive Target where
  | name (name : String)
  | field (object : Datum) (field : String)

/-- What a declared type stands for. -/
inductive TypeBase where
  | aliasOf (text : String)
  | union (options : List String)

/-- What is called, with the type list after it or fused onto it. -/
inductive Callee where
  | plain (head : Datum) (typeArgs : Option String)
  | fused (name : String) (typeArgs : String)

inductive Form where
  | number (value : Binary64)
  | text (value : String)
  | boolean (value : Bool)
  | name (name : String)
  | binary (op : Operator) (operands : List Datum)
  | var (name : String) (typeText : Option String) (value : Datum)
  | assign (target : Target) (value : Datum)
  | block (body : List Datum)
  | cond (condition whenTrue whenFalse : Datum)
  | loop (condition body : Datum)
  | define (name : String) (typeParams : Option String) (parts : FunctionParts)
  | lambda (typeParams : Option String) (parts : FunctionParts)
  | typeDecl (name : String) (base : TypeBase)
  | classDecl (name superclass : String) (body : Datum)
  | new (className : String) (args : List Datum)
  | super (className : String)
  | prop (object : Datum) (field : String)
  | call (callee : Callee) (args : List Datum)

def Param.toDatum (p : Param) : Datum :=
  .list [.symbol p.name, .symbol p.typeText]

namespace FunctionParts

def items (f : FunctionParts) : List Datum :=
  [.list (f.params.map Param.toDatum), .symbol "->", .symbol f.resultText, f.body]

end FunctionParts

def Target.toDatum : Target → Datum
  | name n => .symbol n
  | field object f => .list [.symbol "prop", object, .symbol f]

def TypeBase.toDatum : TypeBase → Datum
  | aliasOf text => .symbol text
  | union options => .list (.symbol "or" :: options.map Datum.symbol)

namespace Form

/-- A type list as it stands in a list: one symbol, or nothing. -/
def listItems (typeList : Option String) : List Datum :=
  typeList.toList.map Datum.symbol

def special (k : Keyword) (items : List Datum) : Datum :=
  .list (.symbol k.text :: items)

/-- The datum that a form is written as. -/
def toDatum : Form → Datum
  | number x => .number x
  | text s => .text s
  | boolean b => .boolean b
  | name n => .symbol n
  | binary op operands => .list (.symbol op.text :: operands)
  | var n none value => special .var [.symbol n, value]
  | var n (some t) value => special .var [.list [.symbol n, .symbol t], value]
  | assign target value => special .set [target.toDatum, value]
  | block body => special .begin body
  | cond condition whenTrue whenFalse => special .cond [condition, whenTrue, whenFalse]
  | loop condition body => special .loop [condition, body]
  | define n typeParams parts =>
      special .define (.symbol n :: (listItems typeParams ++ parts.items))
  | lambda typeParams parts => special .lambda (listItems typeParams ++ parts.items)
  | typeDecl n base => special .typeDecl [.symbol n, base.toDatum]
  | classDecl n superclass body => special .classDecl [.symbol n, .symbol superclass, body]
  | new className args => special .new (.symbol className :: args)
  | super className => special .super [.symbol className]
  | prop object field => special .prop [object, .symbol field]
  | call (.plain head typeArgs) args => .list (head :: (listItems typeArgs ++ args))
  | call (.fused n typeArgs) args => .list (.symbol (n ++ typeArgs) :: args)

/-- The expressions that a form is made of. -/
def parts : Form → List Datum
  | number _ | text _ | boolean _ | name _ | typeDecl _ _ | super _ => []
  | binary _ operands => operands
  | var _ _ value => [value]
  | assign (.name _) value => [value]
  | assign (.field object _) value => [object, value]
  | block body => body
  | cond condition whenTrue whenFalse => [condition, whenTrue, whenFalse]
  | loop condition body => [condition, body]
  | define _ _ f => [f.body]
  | lambda _ f => [f.body]
  | classDecl _ _ body => [body]
  | new _ args => args
  | prop object _ => [object]
  | call (.plain head _) args => head :: args
  | call (.fused _ _) args => args

theorem exists_items_of_mem_parts {f : Form} {d : Datum} (h : d ∈ f.parts) :
    ∃ items, f.toDatum = .list items ∧ (d ∈ items ∨ ∃ inner, .list inner ∈ items ∧ d ∈ inner) := by
  cases f with
  | number | text | boolean | name | typeDecl | super => simp [parts] at h
  | binary op operands => exact ⟨_, rfl, .inl (List.mem_cons_of_mem _ h)⟩
  | var n t value =>
      obtain rfl : d = value := by simpa [parts] using h
      cases t <;> exact ⟨_, rfl, .inl (by simp)⟩
  | assign target value =>
      cases target with
      | name n =>
          obtain rfl : d = value := by simpa [parts] using h
          exact ⟨_, rfl, .inl (by simp)⟩
      | field object f =>
          rcases (by simpa [parts] using h : d = object ∨ d = value) with rfl | rfl
          · exact ⟨_, rfl, .inr ⟨[.symbol "prop", d, .symbol f], by simp [Target.toDatum], by simp⟩⟩
          · exact ⟨_, rfl, .inl (by simp)⟩
  | block body => exact ⟨_, rfl, .inl (List.mem_cons_of_mem _ h)⟩
  | cond | loop | prop => exact ⟨_, rfl, .inl (by simp_all [parts])⟩
  | define n t f =>
      obtain rfl : d = f.body := by simpa [parts] using h
      exact ⟨_, rfl, .inl (by simp [FunctionParts.items])⟩
  | lambda t f =>
      obtain rfl : d = f.body := by simpa [parts] using h
      exact ⟨_, rfl, .inl (by simp [FunctionParts.items])⟩
  | classDecl | new => exact ⟨_, rfl, .inl (by simp_all [parts])⟩
  | call callee args =>
      cases callee with
      | plain head typeArgs =>
          rcases List.mem_cons.mp h with rfl | h
          · exact ⟨_, rfl, .inl (by simp)⟩
          · exact ⟨_, rfl, .inl (by simp [h])⟩
      | fused n typeArgs => exact ⟨_, rfl, .inl (List.mem_cons_of_mem _ h)⟩

theorem sizeOf_lt_of_mem_parts {f : Form} {d : Datum} (h : d ∈ f.parts) :
    sizeOf d < sizeOf f.toDatum := by
  obtain ⟨items, hf, hd | ⟨inner, hinner, hd⟩⟩ := exists_items_of_mem_parts h
  · rw [hf]
    exact Datum.sizeOf_lt_of_mem hd
  · rw [hf]
    exact Nat.lt_trans (Datum.sizeOf_lt_of_mem hd) (Datum.sizeOf_lt_of_mem hinner)

/-- The expressions that end a form of any number of them. -/
def rest : Form → List Datum
  | block body => body
  | new _ args => args
  | call _ args => args
  | _ => []

theorem sizeOf_rest_lt (f : Form) : sizeOf f.rest < sizeOf f.toDatum := by
  cases f with
  | block body => exact Datum.sizeOf_lt_of_suffix (List.suffix_cons _ _)
  | new className args =>
      exact Datum.sizeOf_lt_of_suffix ((List.suffix_cons _ _).trans (List.suffix_cons _ _))
  | call callee args =>
      cases callee with
      | plain head typeArgs =>
          exact Datum.sizeOf_lt_of_suffix
            ((List.suffix_append _ _).trans (List.suffix_cons _ _))
      | fused n typeArgs => exact Datum.sizeOf_lt_of_suffix (List.suffix_cons _ _)
  | _ => exact Datum.one_lt_sizeOf _

end Form

end TypedLisp
