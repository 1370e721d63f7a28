/-
Paths of files, as lists of components.

Written paths are cut at slashes. `Path.ofString` leaves out what does not
matter for naming a file (empty components and single dots) but keeps
components `..`, as what they lead to depends on the files there are.
-/
namespace ExprLang

/-- Why a path leads nowhere. -/
inductive PathError where
  | missing
  /-- The path, or a name on the way, is longer than paths and names may be. -/
  | overlong
  /-- There is a zero character in the path, which no name may hold. -/
  | zeroChar
deriving Repr, DecidableEq

/-- The wording of an error, where it has one. -/
def PathError.message? : PathError → Option String
  | .zeroChar => some "embedded null byte"
  | .missing | .overlong => none

/-- A path from the root or from the working directory. -/
structure Path where
  absolute : Bool
  parts : List String
deriving Repr, DecidableEq

namespace Path

/-- The pieces between slashes, empty ones included. -/
def pieces : List Char → List (List Char)
  | [] => [[]]
  | '/' :: cs => [] :: pieces cs
  | c :: cs =>
    match pieces cs with
    | [] => [[c]]
    | p :: more => (c :: p) :: more

/-- The components of a written path, single dots included. A slash at the
end counts as a dot: what stands before it has to be a directory. -/
def written (text : String) : List String :=
  let ps := pieces text.toList
  let kept := (ps.filter fun p => !p.isEmpty).map String.ofList
  if ps.length > 1 && (ps.getLast?.getD []).isEmpty then kept ++ ["."] else kept

/-- Whether a written path begins at the root. -/
def isRooted (text : String) : Bool := text.toList.head? = some '/'

/-- The path that a text names. -/
def ofString (text : String) : Path :=
  ⟨isRooted text, (written text).filter fun p => p ≠ "."⟩

/-- A path in writing; the working directory itself is a dot. -/
def toString (p : Path) : String :=
  let joined := "/".intercalate p.parts
  if p.absolute then "/" ++ joined
  else if p.parts.isEmpty then "."
  else joined

/-- The greatest length of a name in bytes. -/
def nameLimit : Nat := 255

/-- The greatest length of a written path in bytes. -/
def textLimit : Nat := 4095

/-- Whether a text holds a zero character. -/
def hasZeroChar (text : String) : Bool := text.toList.contains '\x00'

/-- Why a written path leads nowhere, whatever files there are. -/
def fault? (text : String) : Option PathError :=
  if text.isEmpty then some .missing
  else if hasZeroChar text then some .zeroChar
  else if textLimit < text.utf8ByteSize then some .overlong
  else none

/-- A path with components added at its end. -/
def append (p : Path) (more : List String) : Path := { p with parts := p.parts ++ more }

/-- Components with each `..` taking away the one before it; at the root it takes nothing. -/
def collapse (parts : List String) : List String :=
  parts.foldl (fun done p => if p = ".." then done.dropLast else done ++ [p]) []

/-- Order of texts by the codes of their characters. -/
def textBefore : List Char → List Char → Bool
  | [], _ => true
  | _ :: _, [] => false
  | a :: as, b :: bs => if a = b then textBefore as bs else a.toNat < b.toNat

/-- Order of components, the first difference deciding. -/
def partsBefore : List String → List String → Bool
  | [], _ => true
  | _ :: _, [] => false
  | a :: as, b :: bs => if a = b then partsBefore as bs else textBefore a.toList b.toList

/-- Order of paths by their components. The root of an absolute path is a
component of its own. -/
def before (p q : Path) : Bool :=
  let key (x : Path) := if x.absolute then "/" :: x.parts else x.parts
  partsBefore (key p) (key q)

/-- Puts a path in its place among paths in order. -/
def insert (p : Path) : List Path → List Path
  | [] => [p]
  | q :: more => if p.before q then p :: q :: more else q :: insert p more

/-- Paths in order. -/
def sort (ps : List Path) : List Path := ps.foldr insert []

end Path

end ExprLang
