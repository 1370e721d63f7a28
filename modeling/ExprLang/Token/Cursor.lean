/-
A cursor over a source text, and the tokens it yields.

The cursor holds the characters not yet read, beginning with the one it
stands on, and counts lines and columns as it moves. A line ends at `\n` and
nowhere else. `next` skips the blanks and takes one token; at the end of the
text it yields an end token, again and again, always at the same place.
-/
import ExprLang.Token.Lexeme

namespace ExprLang

/-- A place in a source text. `position` counts the moves made, also those
made past the end, where line and column stay what they are; `readPosition`
is where the next move leads. -/
structure Cursor where
  file : String
  rest : List Char
  position : Nat
  readPosition : Nat
  line : Nat
  column : Nat
deriving Repr, DecidableEq

namespace Cursor

/-- The cursor on the first character of a text. -/
def start (file source : String) : Cursor := ⟨file, source.toList, 0, 1, 1, 1⟩

/-- The character under the cursor. -/
def char? (c : Cursor) : Option Char := c.rest.head?

/-- The character after the one under the cursor. -/
def peekChar? (c : Cursor) : Option Char := c.rest.tail.head?

/-- One character onwards. -/
def advance (c : Cursor) : Cursor :=
  match c.rest with
  | [] => { c with position := c.readPosition, readPosition := c.readPosition + 1 }
  | x :: rest =>
    if x = '\n' then ⟨c.file, rest, c.readPosition, c.readPosition + 1, c.line + 1, 1⟩
    else ⟨c.file, rest, c.readPosition, c.readPosition + 1, c.line, c.column + 1⟩

/-- Some characters onwards. -/
def advanceBy : Nat → Cursor → Cursor
  | 0, c => c
  | n + 1, c => advanceBy n c.advance

/-- Past the blanks under the cursor. -/
def skipBlanks (c : Cursor) : Cursor := advanceBy (c.rest.takeWhile isBlank).length c

/-- The token of a kind written with the given characters from the cursor on.
A token stands on one line; the end token has no characters and covers one column. -/
def token (c : Cursor) (kind : Kind) (literal : List Char) : Token :=
  ⟨kind, String.ofList literal,
    ⟨c.file, c.line, c.column, c.line, c.column + (max literal.length 1 : Nat) - 1⟩⟩

/-- The next token, and the cursor after it. -/
def next (c : Cursor) : Token × Cursor :=
  let c := c.skipBlanks
  let (kind, literal) := lexeme c.rest
  (c.token kind literal, advanceBy (max literal.length 1) c)

/-- The tokens before the end of the text, at most `n`, and the cursor after them. -/
def take : Nat → Cursor → List Token × Cursor
  | 0, c => ([], c)
  | n + 1, c =>
    let (t, after) := c.next
    if t.kind = .eof then ([], c)
    else
      let (more, last) := take n after
      (t :: more, last)

/-- The tokens up to and including the first end token, and the cursor after
them. A token takes at least one character, so there are no more tokens than
characters. -/
def drain (c : Cursor) : List Token × Cursor :=
  let (tokens, last) := take c.rest.length c
  let (final, after) := last.next
  (tokens ++ [final], after)

end Cursor

/-- The tokens of a source text, the end token included. -/
def tokenize (file source : String) : List Token := (Cursor.start file source).drain.1

end ExprLang
