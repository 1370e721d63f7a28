/-
Places in a source text.
-/
namespace ExprLang

/-- A stretch of a source text. Lines and columns count from one, columns in
characters, and the end column is the last one covered. Spans that come from
outside may hold any number. -/
structure Span where
  file : String
  startLine : Int
  startColumn : Int
  endLine : Int
  endColumn : Int
deriving Repr, DecidableEq, Inhabited

/-- Where a span starts, as `file:line:column`. -/
def Span.location (s : Span) : String :=
  s.file ++ ":" ++ toString s.startLine ++ ":" ++ toString s.startColumn

end ExprLang
