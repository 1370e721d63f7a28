/-
Files and directories as a tree, and a working directory in it.

Paths are followed from the root: `..` leads back to where one came from, and
goes nowhere at the root. Only a directory can be gone through, also by a dot
or by `..`.
-/
import ExprLang.Files.Path

namespace ExprLang

/-- A file with its text, or a directory with its entries. -/
inductive FileTree where
  | file (text : String)
  | dir (entries : List (String × FileTree))

deriving instance Repr for FileTree

namespace FileTree

/-- Whether this is a directory. -/
def isDir : FileTree → Bool
  | .dir _ => true
  | .file _ => false

/-- The text of a file. -/
def text? : FileTree → Option String
  | .file text => some text
  | .dir _ => none

/-- What the components lead to from a node, whose ancestors are `trail`, the nearest first. -/
def follow (node : FileTree) (trail : List FileTree) :
    List String → Except PathError FileTree
  | [] => .ok node
  | part :: rest =>
    match node with
    | .file _ => .error .missing
    | .dir entries =>
      if part = "." then follow node trail rest
      else if part = ".." then
        match trail with
        | [] => follow node [] rest
        | parent :: above => follow parent above rest
      else
        match entries.lookup part with
        | some entry => follow entry (node :: trail) rest
        | none =>
          .error (if Path.nameLimit < part.utf8ByteSize then .overlong else .missing)

/-- Puts a node in the place of an entry, or adds it. -/
def setEntry (name : String) (node : FileTree) :
    List (String × FileTree) → List (String × FileTree)
  | [] => [(name, node)]
  | (n, t) :: more => if n = name then (n, node) :: more else (n, t) :: setEntry name node more

/-- Puts a node at the end of a path, with the directories on the way. -/
def put : FileTree → List String → FileTree → FileTree
  | _, [], node => node
  | t, part :: rest, node =>
    let entries := match t with
      | .dir entries => entries
      | .file _ => []
    .dir (setEntry part (put ((entries.lookup part).getD (.dir [])) rest node) entries)

mutual

/-- A node and all nodes under it, with the components that lead to them. -/
def nodes : FileTree → List (List String × FileTree)
  | .file text => [([], .file text)]
  | .dir entries => ([], .dir entries) :: entryNodes entries

/-- The nodes under the entries of a directory. -/
def entryNodes : List (String × FileTree) → List (List String × FileTree)
  | [] => []
  | (name, t) :: more =>
    (t.nodes.map fun (parts, node) => (name :: parts, node)) ++ entryNodes more

end

end FileTree

/-- All files, and the components of the working directory. -/
structure FileSystem where
  root : FileTree
  workingDir : List String
deriving Repr

namespace FileSystem

/-- What a written path with these components leads to, from the root or from
the working directory. -/
def follow (fs : FileSystem) (text : String) (absolute : Bool) (parts : List String) :
    Except PathError FileTree :=
  match Path.fault? text with
  | some e => .error e
  | none => fs.root.follow [] (if absolute then parts else fs.workingDir ++ parts)

/-- What a path leads to. -/
def find (fs : FileSystem) (p : Path) : Except PathError FileTree :=
  fs.follow p.toString p.absolute p.parts

/-- What a path leads to, if anything. -/
def find? (fs : FileSystem) (p : Path) : Option FileTree := (fs.find p).toOption

/-- What a path leads to just as it is written. -/
def locate (fs : FileSystem) (text : String) : Except PathError FileTree :=
  fs.follow text (Path.isRooted text) (Path.written text)

/-- The components from the root that a path stands for, whether or not anything is there. -/
def resolve (fs : FileSystem) (p : Path) : List String :=
  Path.collapse (if p.absolute then p.parts else fs.workingDir ++ p.parts)

/-- Writes a file. -/
def write (fs : FileSystem) (p : Path) (text : String) : FileSystem :=
  { fs with root := fs.root.put (fs.resolve p) (.file text) }

/-- Makes a directory, unless there is something already. -/
def makeDir (fs : FileSystem) (p : Path) : FileSystem :=
  match fs.find? p with
  | some _ => fs
  | none => { fs with root := fs.root.put (fs.resolve p) (.dir []) }

end FileSystem

end ExprLang
