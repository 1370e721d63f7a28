/-
The arguments of the command line.

Options begin with a dash and may stand among the other arguments of a
command; two dashes alone end them, and one dash alone is no option. An
option that takes a value has it behind an equals sign or as the next
argument. Of an option given more than once the last one counts.
-/
import ExprLang.Files.Path
import ExprLang.Settings.Basic

namespace ExprLang.Command

/-- An option as it may be written. -/
structure OptionForm where
  /-- With its dashes. -/
  name : String
  takesValue : Bool
deriving Repr, DecidableEq

/-- The options given, with their values, and the other arguments. -/
structure Given where
  options : List (String × String)
  others : List String
deriving Repr, DecidableEq

namespace Given

/-- With one more option in front. -/
def withOption (name value : String) (g : Given) : Given :=
  { g with options := (name, value) :: g.options }

/-- With more flags in front. -/
def withFlags (names : List String) (g : Given) : Given :=
  { g with options := names.map (·, "") ++ g.options }

/-- With one more argument in front. -/
def withOther (arg : String) (g : Given) : Given := { g with others := arg :: g.others }

/-- Whether an option is given. -/
def has (g : Given) (name : String) : Bool := g.options.any (·.1 = name)

/-- The value that counts for an option. -/
def value? (g : Given) (name : String) : Option String := g.options.reverse.lookup name

end Given

/-- The name and the value of an option that has an equals sign in it. -/
def cutAtEquals (arg : String) : String × Option String :=
  let cs := arg.toList
  let name := String.ofList (cs.takeWhile (· ≠ '='))
  match cs.dropWhile (· ≠ '=') with
  | [] => (name, none)
  | _ :: value => (name, some (String.ofList value))

/-- The flags of one letter that an argument with one dash stands for, if all are known. -/
def letterFlags? (forms : List OptionForm) (arg : String) : Option (List String) :=
  (arg.toList.drop 1).mapM fun c =>
    let name := String.ofList ['-', c]
    if forms.any (·.name = name) then some name else none

/-- Whether an argument is an option. -/
def isOption (arg : String) : Bool :=
  match arg.toList with
  | '-' :: _ :: _ => true
  | _ => false

/-- Sorts out arguments; fails on an option that is unknown or misused. Where
options do not mix with other arguments, the first other argument ends them. -/
def sortOut (forms : List OptionForm) (mixed : Bool) : List String → Option Given
  | [] => some ⟨[], []⟩
  | arg :: rest =>
    if arg = "--" then some ⟨[], rest⟩
    else if isOption arg then
      let (name, value?) := cutAtEquals arg
      match forms.find? (·.name = name) with
      | some form =>
        if name.length = 2 then
          do return (← sortOut forms mixed rest).withFlags (← letterFlags? forms arg)
        else if form.takesValue then
          match value? with
          | some v => do return (← sortOut forms mixed rest).withOption name v
          | none =>
            match rest with
            | [] => none
            | v :: rest => do return (← sortOut forms mixed rest).withOption name v
        else
          match value? with
          | some _ => none
          | none => do return (← sortOut forms mixed rest).withOption name ""
      | none =>
        if ['-', '-'].isPrefixOf arg.toList then none
        else do return (← sortOut forms mixed rest).withFlags (← letterFlags? forms arg)
    else if mixed then do return (← sortOut forms mixed rest).withOther arg
    else some ⟨[], arg :: rest⟩

/-! ## Commands -/

/-- What the program is asked to do. -/
inductive Task where
  | version
  | help
  /-- Lists the tokens of a file. -/
  | tokens (file : String)
  /-- Shows how a file is parsed. -/
  | parse (file : String) (color : Option Bool)
  /-- Parses a file, or all files under a directory. -/
  | check (path : String) (color : Option Bool)
  /-- Starts the shell. -/
  | shell (mode : Option ShellMode) (prompt : Option String)
deriving Repr, DecidableEq

/-- A task, and whether the log is shown. -/
structure Invocation where
  verbose : Bool
  task : Task
deriving Repr, DecidableEq

/-- The one argument besides the options, or what it is when left out. An
argument that can be no path is looked at before further ones are refused. -/
def only (g : Given) (default : String) : Option String :=
  match g.others with
  | [] => some default
  | arg :: more => if more.isEmpty || Path.hasZeroChar arg then some arg else none

/-- The options of all commands. -/
def helpForm : OptionForm := ⟨"--help", false⟩

/-- The options on colour. -/
def colorForms : List OptionForm := [⟨"--color", false⟩, ⟨"--no-color", false⟩, helpForm]

/-- Whether colour is asked for; the last option on it counts. -/
def colorOf (g : Given) : Option Bool :=
  (g.options.reverse.find? fun (name, _) => name = "--color" || name = "--no-color").map
    fun (name, _) => name = "--color"

/-- The words for the commands. -/
def commands : List String := ["tokens", "parse", "check", "repl"]

/-- The task of a command with its arguments. -/
def taskOf : (command : String) → List String → Option Task
  | "tokens", args => do
    let g ← sortOut [helpForm] true args
    if g.has "--help" then return .help
    return .tokens (← only g "-")
  | "parse", args => do
    let g ← sortOut colorForms true args
    if g.has "--help" then return .help
    return .parse (← only g "-") (colorOf g)
  | "check", args => do
    let g ← sortOut colorForms true args
    if g.has "--help" then return .help
    return .check (← only g ".") (colorOf g)
  | "repl", args => do
    let g ← sortOut [⟨"--mode", true⟩, ⟨"--prompt", true⟩, helpForm] true args
    if g.has "--help" then return .help
    if !g.others.isEmpty then failure
    match g.value? "--mode" with
    | none => return .shell none (g.value? "--prompt")
    | some word => return .shell (some (← ShellMode.ofName? word)) (g.value? "--prompt")
  | _, _ => none

/-- The options that stand in front of a command. -/
def programForms : List OptionForm :=
  [⟨"--version", false⟩, ⟨"-v", false⟩, ⟨"--verbose", false⟩, helpForm]

/-- The task that an option in front of the command stands for. -/
def optionTask? (g : Given) : Option Task :=
  (g.options.find? fun (name, _) => name = "--version" || name = "--help").map
    fun (name, _) => if name = "--version" then .version else .help

/-- What the arguments ask for; nothing when they are misused. Where the
command is none at all, as two dashes may stand in front of options, the
options are looked for once more from there on. -/
def invocation? (args : List String) : Option Invocation := do
  let g ← sortOut programForms false args
  let verbose := g.has "-v" || g.has "--verbose"
  match optionTask? g, g.others with
  | some task, _ => return ⟨verbose, task⟩
  | none, [] => failure
  | none, command :: rest =>
    if commands.contains command then return ⟨verbose, ← taskOf command rest⟩
    else return ⟨verbose, ← optionTask? (← sortOut programForms false (command :: rest))⟩

end ExprLang.Command
