import TypedLisp.TypeExpr.Parser

namespace TypedLisp

/-- The binary operators with rules of their own. -/
inductive Operator where
  | add | sub | mul | div
  | eq | ne | gt | ge | lt | le
  deriving DecidableEq

namespace Operator

def all : List Operator := [add, sub, mul, div, eq, ne, gt, ge, lt, le]

def text : Operator → String
  | add => "+"
  | sub => "-"
  | mul => "*"
  | div => "/"
  | eq => "=="
  | ne => "!="
  | gt => ">"
  | ge => ">="
  | lt => "<"
  | le => "<="

def ofText? (s : String) : Option Operator :=
  all.find? fun op => op.text == s

theorem text_of_ofText? {s : String} {op : Operator} (h : ofText? s = some op) : op.text = s := by
  simpa using List.find?_some h

/-- Comparisons are boolean whatever their operands. -/
def isComparison : Operator → Bool
  | add | sub | mul | div => false
  | _ => true

end Operator

/-- The words that head a special form, and the two that belong inside one. -/
inductive Keyword where
  | var | set | begin | cond | loop | define | lambda | typeDecl | classDecl | new | super | prop
  | or | arrow
  deriving DecidableEq

namespace Keyword

def all : List Keyword :=
  [.var, .set, .begin, .cond, .loop, .define, .lambda, .typeDecl, .classDecl, .new, .super,
    .prop, .or, .arrow]

def text : Keyword → String
  | .var => "var"
  | .set => "set"
  | .begin => "begin"
  | .cond => "if"
  | .loop => "while"
  | .define => "def"
  | .lambda => "lambda"
  | .typeDecl => "type"
  | .classDecl => "class"
  | .new => "new"
  | .super => "super"
  | .prop => "prop"
  | .or => "or"
  | .arrow => "->"

def ofText? (s : String) : Option Keyword :=
  all.find? fun k => k.text == s

theorem mem_all (k : Keyword) : k ∈ all := by
  cases k <;> decide

theorem text_of_ofText? {s : String} {k : Keyword} (h : ofText? s = some k) : k.text = s := by
  simpa using List.find?_some h

end Keyword

namespace Word

def isOperatorChar (c : Char) : Bool :=
  "+-*/%<>=!&|^".toList.contains c

/-- Spelled with the characters of operators only. -/
def isOperatorLike (s : String) : Bool :=
  !s.toList.isEmpty && s.toList.all isOperatorChar

/-- Split a name and the type list fused onto it. -/
def splitFused? (s : String) : Option (String × String) :=
  let name := s.toList.takeWhile (· != '<')
  let list := String.ofList (s.toList.dropWhile (· != '<'))
  if name ≠ [] ∧ TypeExpr.isTypeList list then some (String.ofList name, list) else none

theorem append_of_splitFused? {s name list : String} (h : splitFused? s = some (name, list)) :
    name ++ list = s := by
  simp only [splitFused?] at h
  split at h
  · obtain ⟨rfl, rfl⟩ := by simpa using h
    apply String.toList_inj.mp
    simp [List.takeWhile_append_dropWhile]
  · simp at h

end Word

end TypedLisp
