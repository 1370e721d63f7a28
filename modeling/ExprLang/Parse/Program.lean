/-
Parsing a whole program.

Statement follows statement up to the end of the text. One that is nested
too deeply is dropped as a whole: the errors it had are kept, one more is
added for the statement itself, and parsing goes on behind the next semicolon.
-/
import ExprLang.Parse.Expression

namespace ExprLang

/-- What a text was read as: the statements, the errors in the order in which
they were met, and where reading stopped. -/
structure Reading where
  statements : List Stmt
  errors : List ParseError
  rest : TokenStream
deriving Repr

namespace Reading

/-- The program that was read. -/
def program (r : Reading) : Program := ⟨r.statements⟩

/-- The errors as diagnostics. -/
def diagnostics (r : Reading) : List Diagnostic := r.errors.map (·.toDiagnostic)

/-- The wording of the errors. -/
def messages (r : Reading) : List String := r.errors.map (·.message)

/-- What was read and met before goes in front of a reading. -/
def after (statements : List Stmt) (errors : List ParseError) (r : Reading) : Reading :=
  ⟨statements ++ r.statements, errors ++ r.errors, r.rest⟩

end Reading

namespace Parse

/-- The statements up to the end of the text, at most as many as `rounds`. -/
def statements (limit : Nat) : (rounds : Nat) → TokenStream → Reading
  | 0, s => ⟨[], [], s⟩
  | rounds + 1, s =>
    if s.current.kind = .eof then ⟨[], [], s⟩
    else match statement (expression limit) s with
      | .done v rest es => (statements limit rounds rest.advance).after v.toList es
      | .tooDeep rest es =>
        (statements limit rounds (rest.skipTo .semicolon).advance).after []
          (es ++ [.tooDeep s.current rest.current])

/-- The program in a stream of tokens. -/
def program (limit : Nat) (s : TokenStream) : Reading := statements limit s.pending.length s

end Parse

/-- How many expressions may be nested in each other. -/
def nestingLimit : Nat := 480

/-- The program in a source text. -/
def parse (file source : String) (limit : Nat) : Reading :=
  Parse.program limit (TokenStream.ofSource file source)

end ExprLang
