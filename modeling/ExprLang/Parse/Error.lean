/-
What can be wrong with a source text, as causes, and the diagnostic that
each cause is reported as.
-/
import ExprLang.Token.Basic
import ExprLang.Diagnostic.Basic

namespace ExprLang

/-- A mistake in a source text, with the token it was noticed at. -/
inductive ParseError where
  /-- The lookahead token `got` is not of the kind that has to follow. -/
  | unexpected (expected : Kind) (got : Token)
  /-- An expression is due, but the current token starts none. -/
  | noOperand (got : Token)
  /-- An integer has more digits than are read. -/
  | longInteger (got : Token)
  /-- The statement that begins with `start` is nested too deeply; the limit
  was hit while `reached` was the current token. -/
  | tooDeep (start reached : Token)
deriving Repr, DecidableEq

namespace ParseError

/-- The code of a cause. -/
def code : ParseError → String
  | .unexpected _ _ => "E200"
  | .noOperand _ => "E201"
  | .longInteger _ => "E202"
  | .tooDeep _ _ => "E203"

/-- The token that a cause points at. -/
def token : ParseError → Token
  | .unexpected _ t | .noOperand t | .longInteger t | .tooDeep t _ => t

/-- The wording of a cause. -/
def message : ParseError → String
  | .unexpected expected got =>
    "expected next token to be " ++ expected.name ++ ", got " ++ got.kind.name ++ " instead"
  | .noOperand got => "no prefix parse function for " ++ got.kind.name ++ " found"
  | .longInteger got => "could not parse " ++ got.literal ++ " as number"
  | .tooDeep _ _ => "expression nested too deeply"

/-- What is written under the token. -/
def label : ParseError → String
  | .unexpected expected _ => "expected " ++ expected.name
  | .noOperand _ => "expression cannot start here"
  | .longInteger _ => "not a valid integer"
  | .tooDeep _ _ => "statement starts here"

/-- A cause as a diagnostic with one label. -/
def toDiagnostic (e : ParseError) : Diagnostic :=
  ⟨.error, e.code, e.message, [⟨e.token.span, e.label⟩]⟩

end ParseError

end ExprLang
