/-
Diagnostics: what is said about a source text, and where it points.
-/
import ExprLang.Span

namespace ExprLang

/-- How serious a diagnostic is. -/
inductive Severity where
  | error | warning | note
deriving Repr, DecidableEq

/-- The word for a severity. -/
def Severity.name : Severity → String
  | .error => "error"
  | .warning => "warning"
  | .note => "note"

/-- A place and what is said about it; the text may be empty. -/
structure Label where
  span : Span
  text : String
deriving Repr, DecidableEq

/-- A diagnostic. Its first label, if it has one, says where it points. -/
structure Diagnostic where
  severity : Severity
  code : String
  message : String
  labels : List Label
deriving Repr, DecidableEq

/-- Where a diagnostic points. -/
def Diagnostic.span? (d : Diagnostic) : Option Span := d.labels.head?.map (·.span)

/-- Diagnostics in one line: their number, and their messages in order. -/
def Diagnostic.summary (ds : List Diagnostic) : String :=
  toString ds.length ++ " error(s): " ++ "; ".intercalate (ds.map (·.message))

end ExprLang
