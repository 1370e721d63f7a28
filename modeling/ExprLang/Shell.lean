/-
The interactive shell: it shows what each typed line becomes.

A session is a walk over the lines. Each line is answered by itself, and
nothing of it is remembered; the exit command ends the session and leaves the
lines after it unread.
-/
import ExprLang.Log
import ExprLang.Text.Lines
import ExprLang.Text.Blank

namespace ExprLang.Shell

/-- The name of typed input in diagnostics. -/
def fileName : String := "<repl>"

/-- The welcome, which names the exit command. -/
def banner (exitCommand : String) : String :=
  "Welcome to the Donkey REPL!\n" ++
    "Type a line of Donkey code to see what it becomes.\n" ++
    "Use the command `" ++ exitCommand ++ "` or CTRL-D to exit the REPL.\n"

/-- A token as a JSON object. -/
def record (t : Token) : String :=
  "\x7b\n  \"type\": " ++ Text.jsonString t.kind.name ++ ",\n  \"literal\": " ++
    Text.jsonString t.literal ++ "\n\x7d"

/-- The tokens of a line, the end token included. -/
def showTokens (line : String) : List Piece :=
  (tokenize fileName line).flatMap fun t => Log.ofToken t ++ [.outLine (record t)]

/-- A line as it is parsed, or else what is wrong with it. -/
def showParse (line : String) : Transcript :=
  let r := parse fileName line nestingLimit
  let log := Log.ofReading fileName line r
  if r.errors.isEmpty then
    match r.program.text with
    | .ok text => ⟨log ++ [.outLine text], none⟩
    | .error e => ⟨log, some (.render e)⟩
  else
    ⟨log ++ .outLine "parser errors:" :: r.messages.map (fun m => .outLine ("\t" ++ m)), none⟩

/-- The answer to a line. -/
def answer (mode : ShellMode) (line : String) : Transcript :=
  match mode with
  | .tokens => ⟨showTokens line, none⟩
  | .parse => showParse line

/-- What a session printed, the lines it did not read, and how it failed. -/
structure Result where
  pieces : List Piece
  unread : List (List Char)
  failure : Option Failure
deriving Repr

/-- Pieces go in front of a result. -/
def Result.after (earlier : List Piece) (r : Result) : Result :=
  { r with pieces := earlier ++ r.pieces }

/-- Whether a line is the exit command. -/
def isExit (s : ShellSettings) (line : List Char) : Bool :=
  s.exitCommand.isText (String.ofList (Text.strip line))

/-- The session from a prompt on. -/
def lines (s : ShellSettings) (prompt : String) : List (List Char) → Result
  | [] => ⟨[.out prompt, .outLine ""], [], none⟩
  | line :: rest =>
    if isExit s line then ⟨[.out prompt], rest, none⟩
    else
      let t := answer s.mode (String.ofList line)
      match t.failure with
      | none => (lines s prompt rest).after (.out prompt :: t.pieces)
      | some f => ⟨.out prompt :: t.pieces, rest, some f⟩

/-- What is printed before the first prompt. -/
def opening (s : ShellSettings) : Transcript :=
  let log : Piece := .log Log.shell ("starting repl in " ++ s.mode.name ++ " mode")
  if s.welcome.isTrue then
    match s.exitCommand.text with
    | .ok exitCommand => ⟨[log, .out (banner exitCommand)], none⟩
    | .error e => ⟨[log], some (.unshown e)⟩
  else ⟨[log], none⟩

/-- A session on the lines of an input. -/
def session (s : ShellSettings) (input : List (List Char)) : Result :=
  let start := opening s
  match start.failure, s.prompt.text with
  | some f, _ => ⟨start.pieces, input, some f⟩
  | none, .error e => ⟨start.pieces, input, some (.unshown e)⟩
  | none, .ok prompt => (lines s prompt input).after start.pieces

/-- A session on an input text. -/
def run (s : ShellSettings) (input : String) : Result :=
  session s (Text.shellLines input.toList)

end ExprLang.Shell
