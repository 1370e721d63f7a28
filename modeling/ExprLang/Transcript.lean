/-
What a program prints, in order, and why it may end early.

A transcript is kept apart from the streams it goes to: whether control
sequences are shown depends on the stream, and whether the log is shown on
how the program was called.
-/
import ExprLang.Settings.Basic
import ExprLang.Text.Ansi
import ExprLang.Tree.Render

namespace ExprLang

/-- Something printed at once. -/
inductive Piece where
  /-- For standard output. -/
  | out (text : String)
  /-- For standard error. -/
  | err (text : String)
  /-- A line for the log of a part of the program. -/
  | log (part message : String)
deriving Repr, DecidableEq

namespace Piece

/-- A line for standard output. -/
def outLine (text : String) : Piece := .out (text ++ "\n")

/-- A line for standard error. -/
def errLine (text : String) : Piece := .err (text ++ "\n")

/-- The text of a piece on a stream. A stream that is no terminal shows no
control sequences. -/
def shown (terminal : Bool) (text : String) : String :=
  if terminal then text else Text.stripAnsi text

/-- What of a piece goes to standard output. -/
def onOut (terminal : Bool) : Piece → String
  | .out text => shown terminal text
  | _ => ""

/-- What of a piece goes to standard error. The log is written as it is. -/
def onErr (terminal verbose : Bool) : Piece → String
  | .out _ => ""
  | .err text => shown terminal text
  | .log part message => if verbose then "DEBUG " ++ part ++ ": " ++ message ++ "\n" else ""

end Piece

/-- Why a program ends before it is through. -/
inductive Failure where
  | settings (e : SettingsError)
  /-- A value of the settings cannot be shown. -/
  | unshown (e : Toml.ShowError)
  /-- A path leads nowhere. -/
  | path (e : PathError)
  /-- A directory stands where a file is to be read. -/
  | unreadable (file : String)
  /-- The pattern for the names of files is no good. -/
  | badPattern (pattern : String)
  | render (e : RenderError)
deriving Repr

/-- What was printed, and the failure that ended the program early. -/
structure Transcript where
  pieces : List Piece
  failure : Option Failure
deriving Repr

namespace Transcript

/-- The text on standard output. -/
def stdout (terminal : Bool) (pieces : List Piece) : String :=
  String.join (pieces.map (·.onOut terminal))

/-- The text on standard error. -/
def stderr (terminal verbose : Bool) (pieces : List Piece) : String :=
  String.join (pieces.map (·.onErr terminal verbose))

end Transcript

end ExprLang
