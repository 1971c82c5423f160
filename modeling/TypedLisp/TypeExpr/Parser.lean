import TypedLisp.Text
import TypedLisp.TypeExpr.Basic

namespace TypedLisp

namespace TypeExpr

open TypedLisp.Text

inductive Token where
  | opening
  | closing
  | comma
  | name (text : String)
  deriving DecidableEq

def tokens : List Char → List Token
  | [] => []
  | c :: cs =>
      if isBlank c then tokens cs
      else if c = '<' then .opening :: tokens cs
      else if c = '>' then .closing :: tokens cs
      else if c = ',' then .comma :: tokens cs
      else
        .name (String.ofList (c :: cs.takeWhile isNameChar)) :: tokens (cs.dropWhile isNameChar)
termination_by cs => cs.length
decreasing_by
  all_goals simp only [List.length_cons]
  all_goals try omega
  have := (List.dropWhile_sublist isNameChar (l := cs)).length_le
  omega

/-- What is wrong with a written type. -/
inductive Reason where
  | expectedName
  | expectedOpeningAfterFn
  | unclosedParams
  | unclosedFunction
  | expectedOpening
  | unclosedList
  | trailingCharacters
  | notAList
  | notPlainNames
  deriving DecidableEq

def Reason.message : Reason → String
  | expectedName => "expected a type name"
  | expectedOpeningAfterFn => "expected '<' after Fn"
  | unclosedParams => "unclosed parameter list"
  | unclosedFunction => "unclosed Fn<...>"
  | expectedOpening => "expected '<'"
  | unclosedList => "unclosed type list"
  | trailingCharacters => "unexpected trailing characters"
  | notAList => "expected a bracketed type list"
  | notPlainNames => "type parameters must be plain names"

/-- A written type that is no type expression. -/
structure Malformed where
  text : String
  reason : Reason
  deriving DecidableEq

def Malformed.message (m : Malformed) : String :=
  "invalid type annotation '" ++ m.text ++ "': " ++ m.reason.message

/-- A construct that is still open while one of its types is read. -/
inductive Frame where
  /-- A function, its result being read. -/
  | result
  /-- A function with its result, its parameters being read after those given. -/
  | params (result : TypeExpr) (before : List TypeExpr)
  /-- A bracketed list, its items being read after those given. -/
  | items (before : List TypeExpr)

/-- What has just been read. -/
inductive Point where
  /-- Nothing; a type has to follow. -/
  | start
  /-- The word `Fn`; its opening bracket has to follow. -/
  | word
  /-- A whole type. -/
  | whole (t : TypeExpr)
  /-- A function up to the end of its parameters; its closing bracket has to follow. -/
  | listed (t : TypeExpr)

/-- Read to the end of the outermost construct: the types it holds, and the tokens after it. The
frames are the constructs still open, innermost first. -/
def readTokens : Point → List Frame → List Token → Except Reason (List TypeExpr × List Token)
  | .start, frames, .name n :: ts =>
      if n = "Fn" then readTokens .word frames ts else readTokens (.whole (named n)) frames ts
  | .start, _, _ => .error .expectedName
  | .word, frames, .opening :: ts => readTokens .start (.result :: frames) ts
  | .word, _, _ => .error .expectedOpeningAfterFn
  | .listed t, frames, .closing :: ts => readTokens (.whole t) frames ts
  | .listed _, _, _ => .error .unclosedFunction
  | .whole t, [], ts => .ok ([t], ts)
  | .whole t, .result :: frames, .opening :: ts => readTokens .start (.params t [] :: frames) ts
  | .whole t, .result :: frames, .closing :: ts => readTokens (.whole (function [] t)) frames ts
  | .whole _, .result :: _, _ => .error .unclosedFunction
  | .whole t, .params result before :: frames, .comma :: ts =>
      readTokens .start (.params result (before ++ [t]) :: frames) ts
  | .whole t, .params result before :: frames, .closing :: ts =>
      readTokens (.listed (function (before ++ [t]) result)) frames ts
  | .whole _, .params _ _ :: _, _ => .error .unclosedParams
  | .whole t, .items before :: frames, .comma :: ts =>
      readTokens .start (.items (before ++ [t]) :: frames) ts
  | .whole t, .items before :: _, .closing :: ts => .ok (before ++ [t], ts)
  | .whole _, .items _ :: _, _ => .error .unclosedList

/-- The type expression that a token sequence is. -/
def ofTokens (ts : List Token) : Except Reason TypeExpr :=
  match readTokens .start [] ts with
  | .error e => .error e
  | .ok ([t], []) => .ok t
  | .ok _ => .error .trailingCharacters

/-- The bracketed list of type expressions that a token sequence is. -/
def listOfTokens : List Token → Except Reason (List TypeExpr)
  | .opening :: inner =>
      match readTokens .start [.items []] inner with
      | .error e => .error e
      | .ok (items, []) => .ok items
      | .ok _ => .error .trailingCharacters
  | _ => .error .expectedOpening

def parse (text : String) : Except Malformed TypeExpr :=
  (ofTokens (tokens text.toList)).mapError (Malformed.mk text)

/-- Brackets around something, which may still be malformed. -/
def isTypeList (text : String) : Bool :=
  let cs := text.toList
  decide (2 < cs.length) && cs.head? == some '<' && cs.getLast? == some '>'

/-- The items of a bracketed list; none if the text is not bracketed at all. -/
def parseList? (text : String) : Option (Except Malformed (List TypeExpr)) :=
  if isTypeList text then
    some ((listOfTokens (tokens text.toList)).mapError (Malformed.mk text))
  else
    none

end TypeExpr

end TypedLisp
