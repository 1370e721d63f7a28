/-
Parsing step by step: a session holds the tokens still to come and all errors
met so far, and each operation runs one of the parsers from where the last
one stopped.
-/
import ExprLang.Parse.Program

namespace ExprLang

/-- The state between two operations. -/
structure Session where
  tokens : TokenStream
  errors : List ParseError
deriving Repr

/-- The operations of a session. -/
inductive Operation where
  | program
  | statement
  | block
  | expression (least : Precedence)
  | expressions (close : Kind)
  | parameters
  | advance
  | expect (kind : Kind)
  /-- The ranks of the current token and of the one after it. -/
  | precedences
  /-- Fails if there is an error on the list. -/
  | verify
deriving Repr, DecidableEq

/-- What an operation yields. -/
inductive Yield where
  | program (p : Program)
  | statement (s : Option Stmt)
  | block (b : Block)
  | expression (e : Option Expr)
  | expressions (es : Option (List Expr))
  | parameters (ps : Option (List Name))
  | nothing
  | matched (found : Bool)
  | precedences (current peek : Precedence)
  /-- The diagnostics that make `verify` fail; none where it passes. -/
  | verified (failure : Option (List Diagnostic))
deriving Repr

namespace Session

/-- The session on a source text. -/
def ofSource (file source : String) : Session := ⟨TokenStream.ofSource file source, []⟩

/-- Runs a parser. The state after it is known also where it hits the limit. -/
def run {α : Type} (p : Parse α) (s : Session) : Option α × Session :=
  match p s.tokens with
  | .done a rest es => (some a, ⟨rest, s.errors ++ es⟩)
  | .tooDeep rest es => (none, ⟨rest, s.errors ++ es⟩)

/-- Does an operation under a nesting limit. Only `program` recovers from
hitting the limit; the others then yield nothing at all. -/
def perform (limit : Nat) (s : Session) : Operation → Option Yield × Session
  | .program =>
    let r := Parse.program limit s.tokens
    (some (.program r.program), ⟨r.rest, s.errors ++ r.errors⟩)
  | .statement => s.run (Yield.statement <$> Parse.statement (Parse.expression limit))
  | .block => s.run (Yield.block <$> Parse.block (Parse.expression limit))
  | .expression least => s.run (Yield.expression <$> Parse.expression limit least)
  | .expressions close =>
    s.run (Yield.expressions <$> Parse.expressions (Parse.expression limit) close)
  | .parameters => s.run (Yield.parameters <$> Parse.parameters)
  | .advance => s.run ((fun _ => Yield.nothing) <$> Parse.advance)
  | .expect kind => s.run (Yield.matched <$> Parse.expect kind)
  | .precedences =>
    (some (.precedences s.tokens.current.kind.precedence s.tokens.peek.kind.precedence), s)
  | .verify =>
    (some (.verified (if s.errors.isEmpty then none
      else some (s.errors.map (·.toDiagnostic)))), s)

end Session

end ExprLang
