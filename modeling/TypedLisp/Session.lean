import TypedLisp.Check.Expr
import TypedLisp.Datum.Reader

namespace TypedLisp

/-- Why a source text has no type. -/
inductive SourceError where
  | unreadable (error : ReadError)
  | halted (halt : Halt)

def Halt.message : Halt → String
  | rejected error => error.message
  | tooDeep => "templates are nested too deep"

namespace SourceError

/-- The message of the error itself. -/
def cause : SourceError → String
  | unreadable e => e.message
  | halted h => h.message

def message : SourceError → String
  | unreadable e => "read error: " ++ e.message
  | halted h => "type error: " ++ h.message

end SourceError

namespace Session

/-- How deep the bodies of templates may be nested. Each body opens a scope that stays open while
the bodies inside it are checked, so deeper nesting would need more scopes than 32 bits can number.
-/
def depthLimit : Nat := 4294967296

def start (options : Options) : Session where
  context := Context.new options
  events := if options.prelude then #[.preludeInstalled Context.prelude.length] else #[]

/-- A session and its logger, set up from the environment. A level that is refused is only
reported. -/
def ofEnvironment (logger : Logger) (env : Environment) : Logger × Session :=
  let (logger, refused) := logger.configure env
  let session := start (.ofEnvironment env)
  match refused with
  | none => (logger, session)
  | some e => (logger, { session with events := #[.levelIgnored e] ++ session.events })

def run {α : Type} (s : Session) (action : CheckM α) : Except Halt α × Session :=
  action.run.run s

/-- Check one expression at top level. A block there declares globally. -/
def check (d : Datum) : CheckM Ty := do
  let t ← CheckM.checkBody (CheckM.bodyWithin depthLimit) d Arena.global
  CheckM.emit (.topLevelTyped t)
  return t

/-- Check expressions at top level in turn, up to the first that is rejected. -/
def checkProgram (ds : List Datum) : CheckM Ty := do
  CheckM.emit (.programStarted ds.length)
  CheckM.checkBlock (CheckM.bodyWithin depthLimit) ds Arena.global

/-- Read a source text and check it. -/
def checkSource (s : Session) (source : String) : Except SourceError Ty × Session :=
  match Datum.read source with
  | .error e => (.error (.unreadable e), s)
  | .ok ds =>
      let (result, s) := s.run (checkProgram ds)
      (result.mapError SourceError.halted, s)

def type? (s : Session) (name : String) : Option Ty :=
  s.context.registered? name

def global? (s : Session) (name : String) : Option Ty :=
  s.context.lookup? Arena.global name

end Session

end TypedLisp
