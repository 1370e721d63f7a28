/-
Tokens: what a source text is made of once its blanks are left out.

A token has a kind, the characters it was written with, and the place it
stands at. The kind of a word is read off one table of keywords, which the
editor's completions list as well.
-/
import ExprLang.Span

namespace ExprLang

/-- The kinds of token. The names of the last seven say the keyword. -/
inductive Kind where
  | illegal | eof | ident | int
  | assign | plus | minus | asterisk | slash | eq | notEq | lt | gt | bang
  | comma | semicolon | lparen | rparen | lbrace | rbrace
  | kwFn | kwLet | kwIf | kwElse | kwTrue | kwFalse | kwReturn
deriving Repr, DecidableEq, Inhabited

/-- Every kind, in the order of their declaration. -/
def Kind.all : List Kind :=
  [.illegal, .eof, .ident, .int, .assign, .plus, .minus, .asterisk, .slash, .eq, .notEq, .lt, .gt,
   .bang, .comma, .semicolon, .lparen, .rparen, .lbrace, .rbrace, .kwFn, .kwLet, .kwIf, .kwElse,
   .kwTrue, .kwFalse, .kwReturn]

/-- The name of a kind in messages and listings. -/
def Kind.name : Kind → String
  | .illegal => "ILLEGAL"
  | .eof => "EOF"
  | .ident => "IDENT"
  | .int => "INT"
  | .assign => "ASSIGN"
  | .plus => "PLUS"
  | .minus => "MINUS"
  | .asterisk => "ASTERISK"
  | .slash => "SLASH"
  | .eq => "EQ"
  | .notEq => "NOT_EQ"
  | .lt => "LT"
  | .gt => "GT"
  | .bang => "BANG"
  | .comma => "COMMA"
  | .semicolon => "SEMICOLON"
  | .lparen => "LPAREN"
  | .rparen => "RPAREN"
  | .lbrace => "LBRACE"
  | .rbrace => "RBRACE"
  | .kwFn => "FUNCTION"
  | .kwLet => "LET"
  | .kwIf => "IF"
  | .kwElse => "ELSE"
  | .kwTrue => "TRUE"
  | .kwFalse => "FALSE"
  | .kwReturn => "RETURN"

/-- The keywords and their kinds, in alphabetical order. -/
def keywords : List (String × Kind) :=
  [("else", .kwElse), ("false", .kwFalse), ("fn", .kwFn), ("if", .kwIf), ("let", .kwLet),
   ("return", .kwReturn), ("true", .kwTrue)]

/-- The kind of a word: a keyword's own, and otherwise an identifier. -/
def Kind.ofWord (word : String) : Kind := (keywords.lookup word).getD .ident

/-- The kind of a character that is a token by itself, whatever follows it. -/
def Kind.ofSymbol? : Char → Option Kind
  | '(' => some .lparen
  | ')' => some .rparen
  | '\x7b' => some .lbrace
  | '\x7d' => some .rbrace
  | ',' => some .comma
  | ';' => some .semicolon
  | '+' => some .plus
  | '-' => some .minus
  | '*' => some .asterisk
  | '/' => some .slash
  | '<' => some .lt
  | '>' => some .gt
  | _ => none

/-- A token and the place it stands at. -/
structure Token where
  kind : Kind
  literal : String
  span : Span
deriving Repr, DecidableEq, Inhabited

end ExprLang
