/-
The token at the head of a text: its kind and its characters.

`lexeme` looks at the first character, and only after `=` and `!` at a second
one. Words and numbers run as far as they can. At the end of the text the
kind is `eof` and there are no characters.
-/
import ExprLang.Token.Basic

namespace ExprLang

/-- The characters that separate tokens and belong to none. -/
def isBlank (c : Char) : Bool := c = ' ' || c = '\t' || c = '\n' || c = '\r'

/-- The characters of words: ASCII letters and the underscore. -/
def isWordChar (c : Char) : Bool := c.isAlpha || c = '_'

/-- The kind and the characters of the token at the head of a text that
starts with no blank. A character that starts no other token is an illegal
token by itself. -/
def lexeme : List Char → Kind × List Char
  | [] => (.eof, [])
  | c :: rest =>
    if isWordChar c then
      let word := c :: rest.takeWhile isWordChar
      (.ofWord (String.ofList word), word)
    else if c.isDigit then (.int, c :: rest.takeWhile Char.isDigit)
    else if c = '=' then
      if rest.head? = some '=' then (.eq, ['=', '=']) else (.assign, ['='])
    else if c = '!' then
      if rest.head? = some '=' then (.notEq, ['!', '=']) else (.bang, ['!'])
    else ((Kind.ofSymbol? c).getD .illegal, [c])

end ExprLang
