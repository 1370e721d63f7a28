/-
Places and diagnostics as an editor wants them: lines and characters counted
from zero, and the end of a range behind its last character.

Lines and characters of an editor have a greatest number, and none is below
zero. A span that comes from outside may lead out of that; `Range.checked`
says so.
-/
import ExprLang.Diagnostic.Basic

namespace ExprLang.Editor

/-- A number that is no line, or no character, for an editor. -/
inductive PositionError where
  | line (n : Int)
  | character (n : Int)
deriving Repr, DecidableEq

/-- The greatest number of a line or a character. -/
def greatestPlace : Int := 2147483647

/-- The wording of an error. -/
def PositionError.message (e : PositionError) : String :=
  let (part, n) := match e with
    | .line n => ("line", n)
    | .character n => ("character", n)
  "Position." ++ part ++ " should be in range [0:" ++ toString greatestPlace ++ "], but was " ++
    toString n ++ "."

/-- Whether a number can be that of a line or a character. -/
def isPlace (n : Int) : Bool := 0 ≤ n && n ≤ greatestPlace

/-- Why a line and a character are no position, the line first. -/
def positionFault? (line character : Int) : Option PositionError :=
  if !isPlace line then some (.line line)
  else if !isPlace character then some (.character character)
  else none

/-- A range of a text. -/
structure Range where
  startLine : Int
  startCharacter : Int
  endLine : Int
  endCharacter : Int
deriving Repr, DecidableEq

/-- The range of a span. -/
def Range.ofSpan (s : Span) : Range :=
  ⟨s.startLine - 1, s.startColumn - 1, s.endLine - 1, s.endColumn⟩

/-- Why the ends of a range are no positions, the start first. -/
def Range.fault? (r : Range) : Option PositionError :=
  positionFault? r.startLine r.startCharacter <|> positionFault? r.endLine r.endCharacter

/-- A range whose ends are positions. -/
def Range.checked (r : Range) : Except PositionError Range :=
  match r.fault? with
  | some e => .error e
  | none => .ok r

/-- The range of nothing, at the beginning of a text. -/
def Range.origin : Range := ⟨0, 0, 0, 0⟩

/-- A diagnostic for an editor. -/
structure Notice where
  range : Range
  /-- One for an error, two for a warning, three for a note. -/
  severity : Nat
  source : String
  code : String
  message : String
deriving Repr, DecidableEq

/-- The number of a severity. -/
def severityNumber : Severity → Nat
  | .error => 1
  | .warning => 2
  | .note => 3

/-- A diagnostic as an editor shows it. One that points nowhere goes to the
beginning of the text. -/
def Notice.ofDiagnostic (d : Diagnostic) : Notice :=
  ⟨(d.span?.map Range.ofSpan).getD Range.origin, severityNumber d.severity, "donkey", d.code,
    "[" ++ d.code ++ "] " ++ d.message⟩

/-- A diagnostic whose range has positions for its ends. -/
def Notice.checked (n : Notice) : Except PositionError Notice := do
  return { n with range := ← n.range.checked }

end ExprLang.Editor
