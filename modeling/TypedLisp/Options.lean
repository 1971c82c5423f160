import TypedLisp.Text

namespace TypedLisp

/-- Environment variables by name. -/
abbrev Environment := String → Option String

structure Options where
  /-- Arithmetic takes numbers only, and addition also strings. -/
  strictOperands : Bool := true
  /-- The global scope starts with the prelude. -/
  prelude : Bool := true
  deriving DecidableEq

namespace Options

def strictOperandsVariable : String := "TYL_STRICT_OPERANDS"

/-- A switch in a variable; other values say nothing. -/
def flag? (value : String) : Option Bool :=
  let word := String.ofList ((Text.trimBlanks value).toList.map Char.toLower)
  if word ∈ ["1", "true", "yes", "on"] then some true
  else if word ∈ ["0", "false", "no", "off"] then some false
  else none

def ofEnvironment (env : Environment) : Options :=
  match (env strictOperandsVariable).bind flag? with
  | some strict => { strictOperands := strict }
  | none => {}

end Options

end TypedLisp
