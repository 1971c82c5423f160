import TypedLisp.Datum.Basic
import TypedLisp.Number.Literal
import TypedLisp.Text

/-!
Reading source text into data. The reader walks the text once and keeps the lists still open,
innermost first. A position is kept as the text from there on, and becomes a byte offset only in
the error.
-/

namespace TypedLisp

/-- Why a source text cannot be read. Positions are offsets in bytes of the text's UTF-8 form. -/
inductive ReadError where
  | unterminatedString (start : Nat)
  | unterminatedList (start : Nat)
  | unexpectedClose (offset : Nat)
  | invalidNumber (literal : String) (offset : Nat)
  | expectedSingle (found : Nat)
  deriving DecidableEq

namespace ReadError

def message : ReadError → String
  | unterminatedString start => s!"unterminated string literal starting at byte {start}"
  | unterminatedList start => s!"unclosed '(' at byte {start}"
  | unexpectedClose offset => s!"unexpected ')' at byte {offset}"
  | invalidNumber literal offset => s!"invalid numeric literal '{literal}' at byte {offset}"
  | expectedSingle found => s!"expected exactly one expression, found {found}"

end ReadError

namespace Datum

open TypedLisp.Text

/-- The datum an atom denotes; none for a number that is misspelt. -/
def ofAtom? (cs : List Char) : Option Datum :=
  if cs = "true".toList then some (boolean true)
  else if cs = "false".toList then some (boolean false)
  else if looksNumeric cs then (Binary64.ofLiteral? cs).map number
  else some (symbol (String.ofList cs))

/-- The text after a comment, which ends with its line. -/
def afterComment : List Char → List Char
  | [] => []
  | c :: cs => if c = '\n' then cs else afterComment cs

theorem length_afterComment_le (cs : List Char) : (afterComment cs).length ≤ cs.length := by
  induction cs with
  | nil => simp [afterComment]
  | cons c cs ih =>
      rw [afterComment]
      split
      · simp
      · simp only [List.length_cons]
        omega

/-- The contents of a string up to its closing quote, and the text after that quote. A backslash
stands for the character after it. -/
def stringContents? : List Char → Option (List Char × List Char)
  | [] => none
  | '"' :: cs => some ([], cs)
  | '\\' :: c :: cs => (stringContents? cs).map fun (s, rest) => (c :: s, rest)
  | '\\' :: [] => none
  | c :: cs => (stringContents? cs).map fun (s, rest) => (c :: s, rest)

theorem length_lt_of_stringContents? {cs s rest : List Char}
    (h : stringContents? cs = some (s, rest)) : rest.length < cs.length := by
  fun_induction stringContents? cs generalizing s rest with
  | case1 => simp at h
  | case2 cs =>
      obtain ⟨-, rfl⟩ := by simpa using h
      simp
  | case3 c cs ih =>
      obtain ⟨⟨s', rest'⟩, hs, he⟩ := Option.map_eq_some_iff.1 h
      obtain ⟨-, rfl⟩ := by simpa using he
      have := ih hs
      simp only [List.length_cons]
      omega
  | case4 => simp at h
  | case5 c cs _ _ _ ih =>
      obtain ⟨⟨s', rest'⟩, hs, he⟩ := Option.map_eq_some_iff.1 h
      obtain ⟨-, rfl⟩ := by simpa using he
      have := ih hs
      simp only [List.length_cons]
      omega

/-- A list still open: the text from its parenthesis on, and its items so far, last first. -/
structure OpenList where
  start : List Char
  items : List Datum

/-- The lists still open, innermost first, and the finished data outside them, last first. -/
structure Progress where
  openLists : List OpenList
  finished : List Datum

namespace Progress

def add (p : Progress) (d : Datum) : Progress :=
  match p.openLists with
  | [] => { p with finished := d :: p.finished }
  | inner :: outer => { p with openLists := { inner with items := d :: inner.items } :: outer }

def openAt (p : Progress) (start : List Char) : Progress :=
  { p with openLists := ⟨start, []⟩ :: p.openLists }

def close? (p : Progress) : Option Progress :=
  match p.openLists with
  | [] => none
  | inner :: outer => some ({ p with openLists := outer }.add (list inner.items.reverse))

end Progress

/-- A fault and the text from it on. -/
inductive Fault where
  | unterminatedString (rest : List Char)
  | unterminatedList (rest : List Char)
  | unexpectedClose (rest : List Char)
  | invalidNumber (literal rest : List Char)

def readFrom (p : Progress) : List Char → Except Fault (List Datum)
  | [] =>
      match p.openLists with
      | [] => .ok p.finished.reverse
      | inner :: _ => .error (.unterminatedList inner.start)
  | c :: cs =>
      if isBlank c then readFrom p cs
      else if c = ';' then readFrom p (afterComment cs)
      else if c = '(' then readFrom (p.openAt (c :: cs)) cs
      else if c = ')' then
        match p.close? with
        | some p' => readFrom p' cs
        | none => .error (.unexpectedClose (c :: cs))
      else if c = '"' then
        match _h : stringContents? cs with
        | some (s, rest) => readFrom (p.add (text (String.ofList s))) rest
        | none => .error (.unterminatedString (c :: cs))
      else
        match ofAtom? (c :: cs.takeWhile isAtomChar) with
        | some d => readFrom (p.add d) (cs.dropWhile isAtomChar)
        | none => .error (.invalidNumber (c :: cs.takeWhile isAtomChar) (c :: cs))
termination_by cs => cs.length
decreasing_by
  all_goals simp only [List.length_cons]
  all_goals try omega
  · have := length_afterComment_le cs
    omega
  · have := length_lt_of_stringContents? _h
    omega
  · have := (List.dropWhile_sublist isAtomChar (l := cs)).length_le
    omega

/-- The length of a text in bytes. -/
def byteLength (cs : List Char) : Nat :=
  cs.foldr (fun c n => c.utf8Size + n) 0

def Fault.toError (total : Nat) : Fault → ReadError
  | unterminatedString rest => .unterminatedString (total - byteLength rest)
  | unterminatedList rest => .unterminatedList (total - byteLength rest)
  | unexpectedClose rest => .unexpectedClose (total - byteLength rest)
  | invalidNumber literal rest =>
      .invalidNumber (String.ofList literal) (total - byteLength rest)

/-- All the data of a source text. -/
def read (source : String) : Except ReadError (List Datum) :=
  (readFrom ⟨[], []⟩ source.toList).mapError (Fault.toError (byteLength source.toList))

/-- The only datum of a source text. -/
def readOne (source : String) : Except ReadError Datum := do
  match ← read source with
  | [d] => pure d
  | ds => throw (.expectedSingle ds.length)

end Datum

end TypedLisp
