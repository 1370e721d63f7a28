/-
Finding the settings for a place among the files: the settings file in the
nearest directory above it counts, and no other one is looked at.
-/
import ExprLang.Settings.Basic
import ExprLang.Files.Tree

namespace ExprLang.Settings

/-- The name of a settings file. -/
def fileName : String := "donkey.toml"

/-- The directory of some components and those above it, the nearest first. -/
def ancestors (parts : List String) : List (List String) :=
  (List.range (parts.length + 1)).reverse.map parts.take

/-- The directory to start from: the place itself, or the directory it is in
when it is a file. There need not be anything at the place. -/
def startDir (fs : FileSystem) (start : Path) : Except PathError (List String) :=
  let parts := fs.resolve start
  if Path.hasZeroChar start.toString then .error .zeroChar
  else match fs.find ⟨true, parts⟩ with
    | .ok (.file _) => .ok parts.dropLast
    | .ok (.dir _) | .error .missing => .ok parts
    | .error e => .error e

/-- The components of the first settings file that is in one of the directories. -/
def firstIn (fs : FileSystem) : List (List String) → Except PathError (Option (List String))
  | [] => .ok none
  | dir :: more =>
    match fs.find ⟨true, dir ++ [fileName]⟩ with
    | .ok _ => .ok (some (dir ++ [fileName]))
    | .error .missing => firstIn fs more
    | .error e => .error e

/-- The components of the nearest settings file from a place upwards. -/
def find (fs : FileSystem) (start : Path) : Except PathError (Option (List String)) := do
  firstIn fs (ancestors (← startDir fs start))

/-- What there is to say when no settings file is found. -/
def notFoundMessage : String := "No " ++ fileName ++ " found in any parent directory"

/-- The settings in a file; a directory in its place cannot be read. -/
def load (fs : FileSystem) (parts : List String) : Except SettingsError Settings :=
  match (fs.find? ⟨true, parts⟩).bind (·.text?) with
  | some source => ofSource (Path.toString ⟨true, parts⟩) source
  | none => .error .unreadable

/-- The settings for a place: those of the nearest file, or none at all. -/
def discover (fs : FileSystem) (start : Path) : Except SettingsError Settings :=
  match find fs start with
  | .ok (some parts) => load fs parts
  | .ok none => .ok Settings.default
  | .error e => .error (.badPlace e)

end ExprLang.Settings
