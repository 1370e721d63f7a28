/-
The source texts that excerpts are taken from.

A text is registered under a file name, or else read from the disk when a
diagnostic in that file is first shown, and kept from then on: a file that
could not be read stays unknown, one that changes later stays as it was. A
registered text replaces whatever was kept.
-/
import ExprLang.Text.Lines
import ExprLang.Diagnostic.Excerpt

namespace ExprLang

/-- The lines kept for each file; the latest entry of a file counts. -/
structure Sources where
  kept : List (String × List String)
deriving Repr, DecidableEq

namespace Sources

/-- No source text is known. -/
def empty : Sources := ⟨[]⟩

/-- The lines of a text, as excerpts number them. -/
def linesOf (text : String) : List String := (Text.lines text.toList).map String.ofList

/-- Registers the text of a file. -/
def add (s : Sources) (file text : String) : Sources := ⟨(file, linesOf text) :: s.kept⟩

/-- The sources with a file's lines among them, and these lines. `disk` gives
the text of a readable file. -/
def load (disk : String → Option String) (s : Sources) (file : String) :
    List String × Sources :=
  match s.kept.lookup file with
  | some lines => (lines, s)
  | none =>
    let lines := linesOf ((disk file).getD "")
    (lines, ⟨(file, lines) :: s.kept⟩)

/-- The line of a number, counted from one. -/
def line? (lines : List String) (n : Int) : Option String :=
  if 0 < n then lines[(n - 1).toNat]? else none

/-- A diagnostic as text, with its line taken from the sources. -/
def render (disk : String → Option String) (color : Bool) (s : Sources) (d : Diagnostic) :
    String × Sources :=
  match d.labels with
  | [] => (d.render color none, s)
  | label :: _ =>
    let (lines, s') := s.load disk label.span.file
    (d.render color (line? lines label.span.startLine), s')

end Sources

end ExprLang
