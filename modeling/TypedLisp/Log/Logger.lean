import TypedLisp.Log.Level
import TypedLisp.Options

namespace TypedLisp

structure Record where
  level : Level
  target : String
  message : String
  deriving DecidableEq

structure Logger where
  level : Level := .warn
  color : Bool := true
  deriving DecidableEq

namespace Logger

def levelVariable : String := "TYL_LOG"

def noColorVariable : String := "NO_COLOR"

def enabled (l : Logger) (level : Level) : Bool :=
  decide (level.rank ≤ l.level.rank)

def setLevel (l : Logger) (text : String) : Except InvalidLevel Logger := do
  let level ← Level.ofText text
  .ok { l with level }

/-- Take the settings from the environment. Colour goes off even if the level is then refused. -/
def configure (l : Logger) (env : Environment) : Logger × Option InvalidLevel :=
  let l := if (env noColorVariable).isSome then { l with color := false } else l
  match env levelVariable with
  | none => (l, none)
  | some text =>
      match l.setLevel text with
      | .ok l => (l, none)
      | .error e => (l, some e)

/-- One line, its level in brackets. -/
def line (l : Logger) (r : Record) : String :=
  let level := "[" ++ r.level.name ++ "]"
  let level := if l.color then r.level.color ++ level ++ "\x1b[0m" else level
  level ++ " " ++ r.target ++ ": " ++ r.message ++ "\n"

/-- The records that a logger lets through. -/
def passed (l : Logger) (records : List Record) : List Record :=
  records.filter fun r => l.enabled r.level

def write (l : Logger) (records : List Record) : String :=
  String.join ((l.passed records).map l.line)

end Logger

end TypedLisp
