/-
Parsing as a function of the tokens still to come.

A run either is done, with a value, or hits the nesting limit. In both cases
it says where in the tokens it stopped and which errors it met on its way; it
is not told the errors met before. A mistake in the text is no failure of the
run: it is an error on the list, and the value tells what is missing.
-/
import ExprLang.Token.Stream
import ExprLang.Parse.Error

namespace ExprLang

/-- How a run ends. -/
inductive Reply (α : Type) where
  | done (value : α) (rest : TokenStream) (errors : List ParseError)
  | tooDeep (rest : TokenStream) (errors : List ParseError)
deriving Repr

/-- Errors met before go in front of those of a reply. -/
def Reply.after {α : Type} (earlier : List ParseError) : Reply α → Reply α
  | .done a rest es => .done a rest (earlier ++ es)
  | .tooDeep rest es => .tooDeep rest (earlier ++ es)

/-- A parser of values of a type. -/
def Parse (α : Type) : Type := TokenStream → Reply α

namespace Parse

variable {α β : Type}

/-- One run after the other. A run that hits the limit is the last. -/
protected def bind (p : Parse α) (f : α → Parse β) : Parse β := fun s =>
  match p s with
  | .done a rest es => (f a rest).after es
  | .tooDeep rest es => .tooDeep rest es

instance : Monad Parse where
  pure a := fun s => .done a s []
  bind := Parse.bind

/-- The current token. -/
def current : Parse Token := fun s => .done s.current s []

/-- The token after the current one. -/
def peek : Parse Token := fun s => .done s.peek s []

/-- How many tokens there are before the end. No loop goes round more often. -/
def remaining : Parse Nat := fun s => .done s.pending.length s []

/-- Goes on to the next token. -/
def advance : Parse Unit := fun s => .done () s.advance []

/-- Puts an error on the list. -/
def report (e : ParseError) : Parse Unit := fun s => .done () s [e]

/-- Hits the nesting limit. -/
def tooDeep : Parse α := fun s => .tooDeep s []

/-- Goes on to the next token if it is of the kind that has to follow, and
otherwise reports it and stays. -/
def expect (kind : Kind) : Parse Bool := do
  let t ← peek
  if t.kind = kind then
    advance
    return true
  else
    report (.unexpected kind t)
    return false

/-- Goes on to the next token if it is a semicolon. -/
def skipSemicolon : Parse Unit := do
  let t ← peek
  if t.kind = .semicolon then advance

end Parse

end ExprLang
