/-
The program on the command line. It takes the files that a task is about
from the disk, has the task done, and prints what there is to print. The
shell answers line by line instead of reading all of its input first.
-/
import ExprLang.Command.Run

namespace ExprLang

open Command

/-- A place on the disk, from the working directory. -/
def onDisk (name : String) := (· / name) <$> IO.currentDir

/-- The text of a file, or nothing if it is no readable text. -/
def readText (name : String) : IO (Option String) := do
  try some <$> IO.FS.readFile (← onDisk name)
  catch _ => return none

/-- What is at a place on the disk; directories are gone through if asked for. -/
partial def loadTree (deep : Bool) (name : String) : IO (Option FileTree) := do
  let place ← onDisk name
  if ← place.isDir then
    if !deep then return some (.dir [])
    let entries ← place.readDir
    let loaded ← entries.toList.filterMapM fun e => do
      return (← loadTree deep (name ++ "/" ++ e.fileName)).map (e.fileName, ·)
    return some (.dir loaded)
  else return (← readText name).map .file

/-- Adds what is at a path on the disk to the files. -/
def addPath (deep : Bool) (fs : FileSystem) (p : Path) : IO FileSystem := do
  let parts := fs.resolve p
  match ← loadTree deep (Path.toString ⟨true, parts⟩) with
  | none => return fs
  | some t => return { fs with root := fs.root.put parts t }

/-- Adds the settings files above a path to the files. -/
def addSettings (fs : FileSystem) (p : Path) : IO FileSystem :=
  (Settings.ancestors (fs.resolve p)).foldlM (fun fs parts =>
    addPath false fs ⟨true, parts ++ [Settings.fileName]⟩) fs

/-- The files that a task is about. -/
def filesFor (task : Task) : IO FileSystem := do
  let working := Path.ofString (← IO.currentDir).toString
  let fs := FileSystem.makeDir ⟨.dir [], working.parts⟩ here
  match task with
  | .version | .help => return fs
  | .tokens file => addPath false fs (Path.ofString file)
  | .parse file _ => addSettings (← addPath false fs (Path.ofString file)) here
  | .check path _ =>
    let p := Path.ofString path
    addSettings (← addPath true fs p) p
  | .shell _ _ => addSettings fs here

/-- The two output streams, and what is shown on them. -/
structure Console where
  out : IO.FS.Stream
  err : IO.FS.Stream
  outTerminal : Bool
  errTerminal : Bool
  verbose : Bool

/-- The console of the process. -/
def Console.open (verbose : Bool) : IO Console := do
  let out ← IO.getStdout
  let err ← IO.getStderr
  return ⟨out, err, ← out.isTty, ← err.isTty, verbose⟩

/-- Prints pieces in order. -/
def Console.print (c : Console) (pieces : List Piece) : IO Unit := do
  for p in pieces do
    c.out.putStr (p.onOut c.outTerminal)
    c.err.putStr (p.onErr c.errTerminal c.verbose)
  c.out.flush

/-- Says that the program failed. -/
def Console.fail (c : Console) (f : Failure) : IO UInt32 := do
  c.err.putStrLn (match f with
    | .settings e => e.message?.getD "the settings cannot be read"
    | .unshown _ => "a value of the settings cannot be shown"
    | .path e => e.message?.getD "a path or a name is too long"
    | .unreadable file => file ++ " is a directory"
    | .badPattern pattern => pattern ++ " is no pattern for file names"
    | .render .tooHigh => "the program is nested too deeply to be shown")
  return 1

/-- Answers the lines of one reading of the terminal. The result is absent as
long as the session goes on. -/
def answerLines (c : Console) (s : ShellSettings) (prompt : String) :
    List (List Char) → IO (Option UInt32)
  | [] => return none
  | line :: rest => do
    if Shell.isExit s line then return some 0
    let t := Shell.answer s.mode (String.ofList line)
    c.print t.pieces
    match t.failure with
    | some f => return some (← c.fail f)
    | none =>
      if !rest.isEmpty then c.print [.out prompt]
      answerLines c s prompt rest

/-- The session of the shell. -/
partial def talk (c : Console) (s : ShellSettings) (prompt : String) : IO UInt32 := do
  c.print [.out prompt]
  let line ← (← IO.getStdin).getLine
  if line.isEmpty then
    c.print [.outLine ""]
    return 0
  match ← answerLines c s prompt (Text.shellLines (Text.normalizeNewlines line.toList)) with
  | some status => return status
  | none => talk c s prompt

/-- Does a task and gives its status. -/
def carryOut (i : Invocation) : IO UInt32 := do
  let c ← Console.open i.verbose
  let fs ← filesFor i.task
  match i.task with
  | .shell mode prompt =>
    match Settings.discover fs here with
    | .error e => c.fail (.settings e)
    | .ok settings =>
      let s := shellSettings settings.shell mode prompt
      let start := Shell.opening s
      c.print start.pieces
      match start.failure, s.prompt.text with
      | some f, _ => c.fail f
      | none, .error e => c.fail (.unshown e)
      | none, .ok prompt => talk c s prompt
  | task =>
    let stdin ← match task with
      | .tokens "-" | .parse "-" _ => (← IO.getStdin).readToEnd
      | _ => pure ""
    match perform fs stdin task with
    | .misused =>
      c.err.putStrLn helpText
      return 2
    | .ended pieces status =>
      c.print pieces
      return status.toUInt32
    | .failed pieces f =>
      c.print pieces
      c.fail f

end ExprLang

/-- The program. -/
def main (args : List String) : IO UInt32 := do
  match ExprLang.Command.invocation? args with
  | some i => ExprLang.carryOut i
  | none =>
    (← IO.getStderr).putStrLn ExprLang.Command.helpText
    return 2
