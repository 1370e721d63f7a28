/-
A diagnostic as a person reads it: a header, the place, and an excerpt with
the offending line and carets under what the diagnostic points at.

In colour the same text stands between control sequences. The header and the
place are always there when the diagnostic has a label; the line and the
carets only when the line is known.
-/
import ExprLang.Diagnostic.Basic

namespace ExprLang

/-! ## Colours -/

/-- The control sequence that a severity is set in. -/
def Severity.accent : Severity → String
  | .error => "\x1b[1;31m"
  | .warning => "\x1b[1;33m"
  | .note => "\x1b[1;36m"

/-- The control sequence of bold text. -/
def boldAccent : String := "\x1b[1m"

/-- The control sequence of the frame around an excerpt. -/
def frameAccent : String := "\x1b[1;34m"

/-- The control sequence that ends an accent. -/
def accentEnd : String := "\x1b[0m"

/-- A text in an accent, or as it is where there is no colour. -/
def paint (color : Bool) (accent text : String) : String :=
  if color then accent ++ text ++ accentEnd else text

/-! ## Excerpts -/

/-- A number with blanks in front up to a width of four. -/
def lineNumber (n : Int) : String :=
  let digits := toString n
  String.ofList (List.replicate (4 - digits.length) ' ') ++ digits

/-- How many carets stand under a span. They cover it on its first line only,
and there is at least one. -/
def Span.caretWidth (s : Span) : Nat := (max 1 (s.endColumn - s.startColumn + 1)).toNat

/-- The bar that frames a line without a number. -/
def excerptBar (color : Bool) : String := paint color frameAccent "     |"

/-- The line that says where a span is. -/
def placeLine (color : Bool) (s : Span) : String :=
  "  " ++ paint color frameAccent "-->" ++ " " ++ s.location

/-- The first line of a diagnostic. -/
def Diagnostic.header (color : Bool) (d : Diagnostic) : String :=
  paint color d.severity.accent (d.severity.name ++ "[" ++ d.code ++ "]") ++
    paint color boldAccent (": " ++ d.message)

/-- The lines under the place: the source line with its number and the
carets with the label, or the label alone where the line is not known. -/
def Diagnostic.excerpt (color : Bool) (d : Diagnostic) (label : Label) :
    Option String → List String
  | none =>
    if label.text.isEmpty then []
    else [excerptBar color ++ " " ++ paint color d.severity.accent label.text]
  | some line =>
    let s := label.span
    let carets := String.ofList (List.replicate s.caretWidth '^')
    let note := if label.text.isEmpty then "" else " " ++ label.text
    let indent := String.ofList (List.replicate (s.startColumn - 1).toNat ' ')
    [paint color frameAccent (lineNumber s.startLine ++ " |") ++ " " ++ line,
     excerptBar color ++ " " ++ indent ++ paint color d.severity.accent (carets ++ note)]

/-- A diagnostic as text, given the source line that its first label starts on. -/
def Diagnostic.render (color : Bool) (d : Diagnostic) (line? : Option String) : String :=
  match d.labels with
  | [] => d.header color
  | label :: _ =>
    "\n".intercalate
      ([d.header color, placeLine color label.span, excerptBar color] ++
        d.excerpt color label line?)

end ExprLang
