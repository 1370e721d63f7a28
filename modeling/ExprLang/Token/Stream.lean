/-
The tokens of a source text as a parser sees them: a current token, one
token of lookahead, and behind the last token the end token for ever.
-/
import ExprLang.Token.Cursor

namespace ExprLang

/-- The tokens still to come. `pending` holds no end token; `final` is the
end token, which follows them as often as it is asked for. -/
structure TokenStream where
  pending : List Token
  final : Token
deriving Repr, DecidableEq

namespace TokenStream

/-- The tokens of a source text. -/
def ofSource (file source : String) : TokenStream :=
  let c := Cursor.start file source
  let (tokens, last) := c.take c.rest.length
  ⟨tokens, last.next.1⟩

/-- The token under consideration. -/
def current (s : TokenStream) : Token := s.pending.headD s.final

/-- The token after the current one. -/
def peek (s : TokenStream) : Token := s.pending.tail.headD s.final

/-- The stream from the next token on. At the end it stays as it is. -/
def advance (s : TokenStream) : TokenStream := { s with pending := s.pending.tail }

/-- The stream from the first token on that is of a kind; from the end, where there is none. -/
def skipTo (kind : Kind) (s : TokenStream) : TokenStream :=
  { s with pending := s.pending.dropWhile (·.kind ≠ kind) }

end TokenStream

end ExprLang
