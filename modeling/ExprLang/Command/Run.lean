/-
What each command prints, and the status it ends with.

A command is a function of the files, the standard input and the task. A task
on a file that is not there counts as misuse of the command line.
-/
import ExprLang.Command.Arguments
import ExprLang.Diagnostic.Sources
import ExprLang.Files.Glob
import ExprLang.Settings.Discovery
import ExprLang.Shell

namespace ExprLang.Command

/-- How a command ends. -/
inductive Outcome where
  /-- The command line was misused. -/
  | misused
  | ended (pieces : List Piece) (status : Nat)
  | failed (pieces : List Piece) (failure : Failure)
deriving Repr

/-- The status of an outcome. -/
def Outcome.status : Outcome → Nat
  | .misused => 2
  | .ended _ status => status
  | .failed _ _ => 1

/-- What was printed. -/
def Outcome.pieces : Outcome → List Piece
  | .misused => []
  | .ended pieces _ | .failed pieces _ => pieces

/-- The name of standard input in diagnostics. -/
def stdinName : String := "<stdin>"

/-- A text as it is read from a file or from standard input. -/
def asRead (text : String) : String := String.ofList (Text.normalizeNewlines text.toList)

/-- The text of a file, for excerpts. -/
def diskText (fs : FileSystem) (file : String) : Option String :=
  ((fs.find? (Path.ofString file)).bind (·.text?)).map asRead

/-- What becomes of a command whose path leads nowhere. -/
def Outcome.ofPath : PathError → Outcome
  | .zeroChar => .failed [] (.path .zeroChar)
  | .missing | .overlong => .misused

/-- The name and the text that a command is to work on. A dash is standard input. -/
def inputOf (fs : FileSystem) (stdin file : String) : Except Outcome (String × String) :=
  if file = "-" then .ok (stdinName, asRead stdin)
  else match fs.locate file with
    | .ok (.file text) => .ok (file, asRead text)
    | .ok (.dir _) => .error .misused
    | .error e => .error (.ofPath e)

/-! ## Tokens -/

/-- The line of a token in a listing. -/
def tokenLine (t : Token) : String :=
  t.span.location ++ "\t" ++ t.kind.name ++ "\t" ++ t.literal

/-- A listing of the tokens of a source text. -/
def listTokens (name source : String) : List Piece :=
  (tokenize name source).flatMap fun t => Log.ofToken t ++ [.outLine (tokenLine t)]

/-! ## Parsing -/

/-- Diagnostics as texts, one after the other, with their lines taken from the sources. -/
def renderAll (disk : String → Option String) (color : Bool) :
    Sources → List Diagnostic → List String × Sources
  | s, [] => ([], s)
  | s, d :: more =>
    let (text, s) := s.render disk color d
    let (texts, s) := renderAll disk color s more
    (text :: texts, s)

/-- What parsing a source text prints besides the program, and what it was
read as. The text is registered when there is something to show of it. -/
def report (fs : FileSystem) (color : Bool) (s : Sources) (name source : String) :
    Reading × List Piece × Sources :=
  let r := parse name source nestingLimit
  let log := Log.ofReading name source r
  if r.errors.isEmpty then (r, log, s)
  else
    let (texts, s) := renderAll (diskText fs) color (s.add name source) r.diagnostics
    (r, log ++ texts.map .errLine, s)

/-- Shows how a source text is parsed, or what is wrong with it. -/
def showProgram (fs : FileSystem) (color : Bool) (name source : String) : Outcome :=
  let (r, pieces, _) := report fs color Sources.empty name source
  if r.errors.isEmpty then
    match r.program.text with
    | .ok text => .ended (pieces ++ [.outLine text]) 0
    | .error e => .failed pieces (.render e)
  else .ended pieces 1

/-! ## Checking -/

/-- What checking files came to: what was printed, how many files had
mistakes, and the failure that ended it early. -/
structure Checked where
  pieces : List Piece
  failed : Nat
  failure : Option Failure
deriving Repr

/-- Checks files one after the other. -/
def checkEach (fs : FileSystem) (color : Bool) : Sources → List Path → Checked
  | _, [] => ⟨[], 0, none⟩
  | s, p :: more =>
    match (fs.find? p).bind (·.text?) with
    | none => ⟨[], 0, some (.unreadable p.toString)⟩
    | some text =>
      let (r, pieces, s) := report fs color s p.toString (asRead text)
      let c := checkEach fs color s more
      ⟨pieces ++ c.pieces, (if r.errors.isEmpty then 0 else 1) + c.failed, c.failure⟩

/-- Checks files and sums up. -/
def checkFiles (fs : FileSystem) (color : Bool) (files : List Path) : Outcome :=
  let c := checkEach fs color Sources.empty files
  let total := toString files.length
  match c.failure with
  | some f => .failed c.pieces f
  | none =>
    if c.failed = 0 then
      .ended (c.pieces ++ [.outLine ("checked " ++ total ++ " file(s): no errors")]) 0
    else
      .ended (c.pieces ++
        [.errLine (toString c.failed ++ " of " ++ total ++ " file(s) had errors")]) 1

/-- Why the files to check cannot be found. -/
def globFailure (pattern : String) : GlobError → Failure
  | .badPattern => .badPattern pattern
  | .overlong => .path .overlong

/-- Checks all files under a directory whose names end in the extension. -/
def checkUnder (fs : FileSystem) (settings : Settings) (color : Bool) (p : Path) : Outcome :=
  match settings.extension.text with
  | .error e => .failed [] (.unshown e)
  | .ok extension =>
    match globUnder fs ("*" ++ extension) p with
    | .error e => .failed [] (globFailure ("*" ++ extension) e)
    | .ok [] => .ended [.errLine ("warning: no " ++ extension ++ " files found")] 0
    | .ok files => checkFiles fs color files

/-- Checks what is at a path: the file, or the files under the directory. -/
def check (fs : FileSystem) (settings : Settings) (color : Bool) (p : Path) : Outcome :=
  match fs.find? p with
  | some (.file _) => checkFiles fs color [p]
  | _ => checkUnder fs settings color p

/-! ## All commands -/

/-- The version of the program. -/
def version : String := "0.1.0"

/-- A short help on the commands. -/
def helpText : String :=
  "Usage: donkey [--version] [-v] tokens|parse|check|repl [OPTIONS] [ARGUMENT]"

/-- Settings for a place, for a command that needs them. -/
def withSettings (fs : FileSystem) (start : Path) (k : Settings → Outcome) : Outcome :=
  match Settings.discover fs start with
  | .ok settings => k settings
  | .error e => .failed [] (.settings e)

/-- The working directory. -/
def here : Path := ⟨false, []⟩

/-- The settings of the shell, as options change them. -/
def shellSettings (s : ShellSettings) (mode : Option ShellMode) (prompt : Option String) :
    ShellSettings :=
  { s with
    mode := mode.getD s.mode
    prompt := (prompt.map Toml.Value.string).getD s.prompt }

/-- Does a task. -/
def perform (fs : FileSystem) (stdin : String) : Task → Outcome
  | .version => .ended [.outLine ("donkey, version " ++ version)] 0
  | .help => .ended [.outLine helpText] 0
  | .tokens file =>
    match inputOf fs stdin file with
    | .error o => o
    | .ok (name, source) => .ended (listTokens name source) 0
  | .parse file color =>
    match inputOf fs stdin file with
    | .error o => o
    | .ok (name, source) =>
      withSettings fs here fun settings =>
        showProgram fs (color.getD settings.color.isTrue) name source
  | .check path color =>
    match fs.locate path with
    | .error e => .ofPath e
    | .ok _ =>
      let p := Path.ofString path
      withSettings fs p fun settings => check fs settings (color.getD settings.color.isTrue) p
  | .shell mode prompt =>
    withSettings fs here fun settings =>
      let r := Shell.run (shellSettings settings.shell mode prompt) (asRead stdin)
      match r.failure with
      | none => .ended r.pieces 0
      | some f => .failed r.pieces f

/-- A run of the program: whether the log is shown, and how the command ended. -/
structure Run where
  verbose : Bool
  outcome : Outcome
deriving Repr

namespace Run

/-- The text on standard output. -/
def stdout (terminal : Bool) (r : Run) : String :=
  Transcript.stdout terminal r.outcome.pieces

/-- The text on standard error. -/
def stderr (terminal : Bool) (r : Run) : String :=
  Transcript.stderr terminal r.verbose r.outcome.pieces

end Run

/-- Runs the program on its arguments. -/
def run (fs : FileSystem) (stdin : String) (args : List String) : Run :=
  match invocation? args with
  | none => ⟨false, .misused⟩
  | some i => ⟨i.verbose, perform fs stdin i.task⟩

end ExprLang.Command
