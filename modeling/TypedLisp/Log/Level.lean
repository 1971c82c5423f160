import TypedLisp.Text

namespace TypedLisp

inductive Level where
  | error | warn | info | debug | trace
  deriving DecidableEq

/-- A text that names no level. -/
structure InvalidLevel where
  text : String
  deriving DecidableEq

def InvalidLevel.message (e : InvalidLevel) : String :=
  "Invalid log level: " ++ e.text

namespace Level

def rank : Level → Nat
  | error => 0
  | warn => 1
  | info => 2
  | debug => 3
  | trace => 4

def name : Level → String
  | error => "ERROR"
  | warn => "WARN"
  | info => "INFO"
  | debug => "DEBUG"
  | trace => "TRACE"

/-- The terminal code that starts a level's colour. -/
def color : Level → String
  | error => "\x1b[31m"
  | warn => "\x1b[33m"
  | info => "\x1b[32m"
  | debug => "\x1b[36m"
  | trace => "\x1b[35m"

/-- Upper case, as far as the names of levels can tell: the dotless i is the only other letter whose
capital stands in one of them. -/
def upper (c : Char) : Char :=
  if c = 'ı' then 'I' else c.toUpper

/-- Case and surrounding blanks are ignored. -/
def ofText (text : String) : Except InvalidLevel Level :=
  let word := String.ofList ((Text.trimBlanks text).toList.map upper)
  if word = "ERROR" then .ok error
  else if word = "WARN" ∨ word = "WARNING" then .ok warn
  else if word = "INFO" then .ok info
  else if word = "DEBUG" then .ok debug
  else if word = "TRACE" then .ok trace
  else .error ⟨text⟩

end Level

end TypedLisp
