/-
The log of lexing and parsing.

A parser asks for a token as soon as the one before it becomes current, and
an illegal character is logged when it is asked for. An error is logged when
it is met. So an error about the lookahead token comes after all illegal
characters up to that token, and an error about the current token after those
up to the next one.
-/
import ExprLang.Transcript
import ExprLang.Parse.Program
import ExprLang.Text.Quoted

namespace ExprLang.Log

/-- The name of the lexer in the log. -/
def lexer : String := "donkey.lexer"

/-- The name of the parser in the log. -/
def parser : String := "donkey.parser"

/-- The name of the shell in the log. -/
def shell : String := "donkey.repl"

/-- The entry of a token that was asked for: only an illegal one has any. -/
def ofToken (t : Token) : List Piece :=
  if t.kind = .illegal then
    [.log lexer ("illegal character " ++ Text.quoted t.literal ++ " at " ++ t.span.location)]
  else []

/-- The entry of an error. -/
def ofError (e : ParseError) : Piece :=
  .log parser (e.token.span.location ++ ": " ++ e.message)

/-- How many of the tokens had been asked for when an error was met. -/
def asked (tokens : List Token) : ParseError → Nat
  | .unexpected _ t => tokens.findIdx (· = t) + 1
  | .noOperand t | .longInteger t | .tooDeep _ t => tokens.findIdx (· = t) + 2

/-- The entries of errors in order, and of the tokens asked for up to each of
them; `known` tokens have been asked for before. -/
def ofErrors (tokens : List Token) : (known : Nat) → List ParseError → List Piece
  | known, [] => (tokens.drop known).flatMap ofToken
  | known, e :: more =>
    let n := max known (asked tokens e)
    ((tokens.take n).drop known).flatMap ofToken ++ ofError e :: ofErrors tokens n more

/-- The entries of parsing a source text. -/
def ofReading (file source : String) (r : Reading) : List Piece :=
  ofErrors (tokenize file source) 0 r.errors ++
    [.log parser ("parsed " ++ toString r.statements.length ++ " statement(s) from " ++ file ++
      " with " ++ toString r.errors.length ++ " error(s)")]

end ExprLang.Log
