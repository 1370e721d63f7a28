/-
Blank characters in the wide sense, and text without the blanks around it.
The language itself knows only four of them (`ExprLang.isBlank`); this is the
set a typed command is trimmed by.
-/
namespace ExprLang.Text

/-- The 29 blank characters: the space characters of Unicode, the line and
paragraph separators, the next-line control, and the ASCII controls from tab
to carriage return and from file to unit separator. -/
def isSpace (c : Char) : Bool :=
  let n := c.toNat
  (0x09 ≤ n && n ≤ 0x0d) || (0x1c ≤ n && n ≤ 0x20) || n = 0x85 || n = 0xa0 ||
    n = 0x1680 || (0x2000 ≤ n && n ≤ 0x200a) || n = 0x2028 || n = 0x2029 ||
    n = 0x202f || n = 0x205f || n = 0x3000

/-- The text from its first to its last character that is no blank. -/
def strip (cs : List Char) : List Char :=
  ((cs.dropWhile isSpace).reverse.dropWhile isSpace).reverse

end ExprLang.Text
