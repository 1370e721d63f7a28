/-
Lines of a text. There are three notions, and each has its own user.

`lines` breaks at every character that separates lines in Unicode, and keeps
none of them: it serves excerpts and the words of an editor. `shellLines`
cuts after `\n` only and keeps it, as a reader of typed input does.
`normalizeNewlines` is what reading a text file does: `\r\n` and a lone `\r`
become `\n`.
-/
namespace ExprLang.Text

/-- The characters at which a line ends. -/
def isLineBreak (c : Char) : Bool :=
  c = '\n' || c = '\r' || c = '\x0b' || c = '\x0c' || c = '\x1c' || c = '\x1d' || c = '\x1e' ||
    c = '\u0085' || c = '\u2028' || c = '\u2029'

/-- The lines of a text without their breaks; `\r\n` is one break, and a
break at the end of the text opens no further line. -/
def lines : List Char → List (List Char)
  | [] => []
  | '\r' :: '\n' :: rest => [] :: lines rest
  | c :: rest =>
    if isLineBreak c then [] :: lines rest
    else match lines rest with
      | [] => [[c]]
      | line :: more => (c :: line) :: more

/-- The lines of typed input, each with the `\n` that ended it; the last may have none. -/
def shellLines : List Char → List (List Char)
  | [] => []
  | '\n' :: rest => ['\n'] :: shellLines rest
  | c :: rest =>
    match shellLines rest with
    | [] => [[c]]
    | line :: more => (c :: line) :: more

/-- Every line end as `\n`. -/
def normalizeNewlines : List Char → List Char
  | [] => []
  | '\r' :: '\n' :: rest => '\n' :: normalizeNewlines rest
  | '\r' :: rest => '\n' :: normalizeNewlines rest
  | c :: rest => c :: normalizeNewlines rest

end ExprLang.Text
