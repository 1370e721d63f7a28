/-
The settings of the shell, of diagnostics and of checking, and how they are
read off a TOML table.

Only the mode of the shell is verified; whatever value stands for any other
setting is kept as it is, and tables and keys that mean nothing are ignored.
-/
import ExprLang.Files.Path
import ExprLang.Toml.Document

namespace ExprLang

/-- What the shell shows of a line: its tokens, or how it is parsed. -/
inductive ShellMode where
  | tokens | parse
deriving Repr, DecidableEq

/-- The word for a mode. -/
def ShellMode.name : ShellMode → String
  | .tokens => "tokens"
  | .parse => "parse"

/-- The mode of a word. -/
def ShellMode.ofName? (word : String) : Option ShellMode :=
  if word = "tokens" then some .tokens
  else if word = "parse" then some .parse
  else none

/-- The settings of the shell. -/
structure ShellSettings where
  prompt : Toml.Value
  exitCommand : Toml.Value
  mode : ShellMode
  /-- Whether a welcome is shown. -/
  welcome : Toml.Value
deriving Repr

/-- All settings. -/
structure Settings where
  shell : ShellSettings
  /-- Whether diagnostics are in colour. -/
  color : Toml.Value
  /-- What the names of the files end in that are checked. -/
  extension : Toml.Value
deriving Repr

/-- The shell without any settings. -/
def ShellSettings.default : ShellSettings :=
  ⟨.string ">> ", .string "exit();", .tokens, .bool true⟩

/-- No settings at all. -/
def Settings.default : Settings := ⟨.default, .bool true, .string ".dk"⟩

/-- Why settings cannot be used. -/
inductive SettingsError where
  /-- The place to look for settings from is no place. -/
  | badPlace (e : PathError)
  /-- The settings file is a directory. -/
  | unreadable
  /-- The file cannot be read as a TOML document. -/
  | document (e : Toml.ReadError)
  /-- The mode of the shell in a file is no mode, but the value that is shown. -/
  | badMode (file shown : String)
  /-- The mode of the shell is no mode, and cannot even be shown. -/
  | unshown (e : Toml.ShowError)
  /-- A value of a kind stands where there should be a table. -/
  | notATable (kind : String)
deriving Repr, DecidableEq

/-- The word for the kind of a value. -/
def Toml.Value.kindName : Toml.Value → String
  | .string _ => "str"
  | .int _ => "int"
  | .bool _ => "bool"
  | .float _ => "float"
  | .moment m => m.kindName
  | .array _ => "list"
  | .table _ => "dict"

/-- What is said of an integer with too many digits. -/
def digitsMessage (found : String) : String :=
  "Exceeds the limit (" ++ toString Toml.integerDigits ++
    " digits) for integer string conversion" ++ found ++
    "; use sys.set_int_max_str_digits() to increase the limit"

/-- The wording of an error, where it has one. -/
def SettingsError.message? : SettingsError → Option String
  | .badPlace e => e.message?
  | .document (.longInteger digits) =>
    some (digitsMessage (": value has " ++ toString digits ++ " digits"))
  | .unshown .longInteger => some (digitsMessage "")
  | .unreadable | .document _ | .unshown .tooDeep => none
  | .badMode file shown =>
    some (file ++ ": [repl] mode must be one of tokens, parse, got " ++ shown)
  | .notATable kind => some ("'" ++ kind ++ "' object has no attribute 'get'")

namespace Settings

/-- The table under a key, or nothing where the key is missing. -/
def section? (t : Toml.Table) (key : String) : Except SettingsError (Option Toml.Table) :=
  match t.lookup key with
  | none => .ok none
  | some (.table fields) => .ok (some fields)
  | some v => .error (.notATable v.kindName)

/-- Why a value is no mode. -/
def notAMode (file : String) (v : Toml.Value) : SettingsError :=
  match v.shown with
  | .ok shown => .badMode file shown
  | .error e => .unshown e

/-- The mode that a value stands for. -/
def modeOf (file : String) : Toml.Value → Except SettingsError ShellMode
  | .string word =>
    match ShellMode.ofName? word with
    | some mode => .ok mode
    | none => .error (notAMode file (.string word))
  | v => .error (notAMode file v)

/-- The settings of the shell in a table. -/
def shellOf (file : String) (t : Toml.Table) : Except SettingsError ShellSettings := do
  let d := ShellSettings.default
  let mode ← modeOf file ((t.lookup "mode").getD (.string d.mode.name))
  return ⟨(t.lookup "prompt").getD d.prompt, (t.lookup "exit_command").getD d.exitCommand, mode,
    (t.lookup "welcome").getD d.welcome⟩

/-- The settings in a table. The name of the file is for messages. The tables
are looked at in a fixed order, and the first error counts. -/
def ofTable (file : String) (t : Toml.Table) : Except SettingsError Settings := do
  let d := Settings.default
  let shell ← match ← section? t "repl" with
    | some fields => shellOf file fields
    | none => pure d.shell
  let color := match ← section? t "diagnostics" with
    | some fields => (fields.lookup "color").getD d.color
    | none => d.color
  let extension := match ← section? t "check" with
    | some fields => (fields.lookup "extension").getD d.extension
    | none => d.extension
  return ⟨shell, color, extension⟩

/-- The settings in a document. -/
def ofSource (file source : String) : Except SettingsError Settings :=
  match Toml.parse source with
  | .ok t => ofTable file t
  | .error e => .error (.document e)

end Settings

end ExprLang
