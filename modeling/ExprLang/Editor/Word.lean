/-
The word under an editor's cursor.

A position is a line and a character, both counted from zero; the character
counts the places between characters, so that one past the last is the end of
the line. Words are runs of letters of any script and underscores.
-/
import ExprLang.Text.Letter
import ExprLang.Text.Lines

namespace ExprLang.Editor

/-- The characters of a word under the cursor. -/
def isWordPart (c : Char) : Bool := Text.isLetter c || c = '_'

/-- The run of word characters around a place in a line: those right before
it, and those from it on. -/
def wordAround (line : List Char) (place : Nat) : List Char :=
  ((line.take place).reverse.takeWhile isWordPart).reverse ++
    (line.drop place).takeWhile isWordPart

/-- The word at a character of a line. A cursor at the end of the line is
taken to be on the last character. -/
def wordInLine (line : List Char) (character : Int) : List Char :=
  if character < 0 || line.length < character then []
  else
    let n := character.toNat
    if n < line.length then wordAround line n
    else if 0 < n then wordAround line (n - 1)
    else []

/-- The word at a position in a text, or nothing. -/
def wordAt (source : String) (line character : Int) : String :=
  if line < 0 then ""
  else match (Text.lines source.toList)[line.toNat]? with
    | none => ""
    | some text => String.ofList (wordInLine text character)

end ExprLang.Editor
