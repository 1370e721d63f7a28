/-
Patterns of file names, and the files under a directory that match one.

In a pattern `*` stands for any characters, `?` for one, and brackets for one
character of a class; a class that begins with `!` is turned round. A pattern
may have several components; one that is `**` stands for any number of
directories. Matching minds the case of letters and finds hidden files too.
-/
import ExprLang.Files.Tree

namespace ExprLang

/-! ## Classes of characters -/

/-- A part of a class: one character, or all from one to another. -/
inductive ClassItem where
  | single (c : Char)
  | range (lo hi : Char)
deriving Repr, DecidableEq

/-- Whether a character is in a part of a class. -/
def ClassItem.contains (x : Char) : ClassItem → Bool
  | .single c => x = c
  | .range lo hi => lo ≤ x && x ≤ hi

/-- What stands between the brackets of a class, cut at the hyphens that make
ranges: a hyphen at the beginning, right behind a range, or at the end makes
none. `room` is how many characters from here on are no such hyphen. -/
def classChunks : (room : Nat) → List Char → List (List Char)
  | _, [] => [[]]
  | 0, '-' :: cs => [] :: classChunks 2 cs
  | room, c :: cs =>
    match classChunks (room - 1) cs with
    | [] => [[c]]
    | chunk :: more => (c :: chunk) :: more

/-- Gives a hyphen at the end back to the chunk before it. -/
def closeChunks : List (List Char) → List (List Char)
  | [chunk, []] => [chunk ++ ['-']]
  | chunk :: more => chunk :: closeChunks more
  | [] => []

/-- Leaves out the ranges that hold no character, from the last to the first. -/
def dropEmptyRanges : List (List Char) → List (List Char)
  | [] => []
  | chunk :: more =>
    match dropEmptyRanges more with
    | [] => [chunk]
    | next :: rest =>
      match chunk.getLast?, next with
      | some hi, lo :: lows =>
        if lo < hi then (chunk.dropLast ++ lows) :: rest else chunk :: next :: rest
      | _, _ => chunk :: next :: rest

/-- Chunks as one sequence, in which a hyphen that makes a range is `none`. -/
def joinChunks : List (List Char) → List (Option Char)
  | [] => []
  | [chunk] => chunk.map some
  | chunk :: more => chunk.map some ++ none :: joinChunks more

/-- The parts of a class. -/
def classItems : List (Option Char) → List ClassItem
  | [] => []
  | some lo :: none :: some hi :: rest => .range lo hi :: classItems rest
  | some c :: rest => .single c :: classItems rest
  | none :: rest => .single '-' :: classItems rest

/-! ## Patterns of one component -/

/-- A piece of a pattern. -/
inductive GlobPiece where
  /-- Any characters. -/
  | many
  /-- One character of a class, or one of none when the class is turned round. -/
  | one (inverted : Bool) (items : List ClassItem)
deriving Repr, DecidableEq

/-- Any one character. -/
def GlobPiece.any : GlobPiece := .one true []

/-- One given character. -/
def GlobPiece.literal (c : Char) : GlobPiece := .one false [.single c]

/-- Whether a piece for one character matches it. -/
def GlobPiece.accepts (x : Char) : GlobPiece → Bool
  | .many => false
  | .one inverted items => (items.any fun i => i.contains x) != inverted

/-- The piece that the characters between brackets stand for. -/
def GlobPiece.ofClass (inside : List Char) : GlobPiece :=
  let first := if inside.head? = some '!' then 2 else 1
  match joinChunks (dropEmptyRanges (closeChunks (classChunks first inside))) with
  | some '!' :: items => .one true (classItems items)
  | items => .one false (classItems items)

/-- The characters of a class after its opening bracket, and what follows the
closing one. A bracket that closes nothing yet is a member. -/
def classBody (cs : List Char) : Option (List Char × List Char) :=
  let mark := if cs.head? = some '!' then 1 else 0
  let start := if (cs.drop mark).head? = some ']' then mark + 1 else mark
  let body := (cs.drop start).takeWhile (· ≠ ']')
  match (cs.drop start).dropWhile (· ≠ ']') with
  | [] => none
  | _ :: rest => some (cs.take start ++ body, rest)

/-- The pieces of a pattern, at most as many as `rounds`. A bracket without
its partner stands for itself. -/
def globPieces : (rounds : Nat) → List Char → List GlobPiece
  | 0, _ => []
  | _, [] => []
  | rounds + 1, c :: cs =>
    if c = '*' then .many :: globPieces rounds cs
    else if c = '?' then .any :: globPieces rounds cs
    else if c = '[' then
      match classBody cs with
      | none => .literal '[' :: globPieces rounds cs
      | some (inside, rest) => .ofClass inside :: globPieces rounds rest
    else .literal c :: globPieces rounds cs

/-- Tells of every ending of a name, from the whole of it to the empty one,
whether it or a shorter one is marked. -/
def orShorter : List Bool → List Bool
  | [] => []
  | b :: more => (b || more.contains true) :: orShorter more

/-- Tells of every ending of a name whether it begins with a character that a
piece matches and goes on with a marked ending. -/
def afterOne (p : GlobPiece) : List Char → List Bool → List Bool
  | c :: name, _ :: next :: more => (p.accepts c && next) :: afterOne p name (next :: more)
  | _, _ => [false]

/-- Tells of every ending of a name, from the whole of it to the empty one,
whether pieces match all of it. -/
def endMatches (name : List Char) : List GlobPiece → List Bool
  | [] => name.map (fun _ => false) ++ [true]
  | .many :: more => orShorter (endMatches name more)
  | p :: more => afterOne p name (endMatches name more)

/-- Whether a pattern matches a name. -/
def globMatch (pattern name : String) : Bool :=
  let cs := pattern.toList
  (endMatches name.toList (globPieces cs.length cs)).head? = some true

/-! ## Patterns of several components -/

/-- A component of a pattern. -/
inductive GlobPart where
  /-- Any number of directories. -/
  | anyDepth
  /-- Entries whose name matches. -/
  | wildcard (pattern : String)
  /-- The entry of a name. -/
  | name (name : String)
  /-- The directory itself, for a slash at the end. -/
  | self
deriving Repr, DecidableEq

/-- Whether there are two stars in a row. -/
def hasTwoStars : List Char → Bool
  | '*' :: '*' :: _ => true
  | _ :: cs => hasTwoStars cs
  | [] => false

/-- A component of a pattern as written. Two stars in a row are only good for
a component of their own. -/
def GlobPart.ofString? (part : String) : Option GlobPart :=
  let cs := part.toList
  if part = "**" then some .anyDepth
  else if hasTwoStars cs then none
  else if cs.any fun c => c = '*' || c = '?' || c = '[' then some (.wildcard part)
  else some (.name part)

/-- Why a pattern leads nowhere. -/
inductive GlobError where
  /-- The pattern is no good. -/
  | badPattern
  /-- A name in the pattern, or a path it leads to, is too long. -/
  | overlong
deriving Repr, DecidableEq

/-- The components of a pattern, or nothing if one of them is no good. -/
def globParts? (pattern : String) : Option (List GlobPart) := do
  let ps := Path.pieces pattern.toList
  let names := (ps.map String.ofList).filter fun p => p ≠ "" && p ≠ "."
  let parts ← names.mapM GlobPart.ofString?
  return if ps.length > 1 && (ps.getLast?.getD []).isEmpty then parts ++ [.self] else parts

/-- The paths that a pattern leads to from a path. All but the last component
have to lead to directories. -/
def globSelect (fs : FileSystem) : List GlobPart → Path → Except GlobError (List Path)
  | [], p => .ok [p]
  | .self :: _, p => .ok [p]
  | .anyDepth :: more, p =>
    match fs.find? p with
    | none => .ok []
    | some t => do
      let dirs := t.nodes.filter fun (_, node) => node.isDir
      let found ← dirs.mapM fun (parts, _) => globSelect fs more (p.append parts)
      return found.flatten.eraseDups
  | .name name :: more, p =>
    match fs.find (p.append [name]) with
    | .ok t => if more.isEmpty || t.isDir then globSelect fs more (p.append [name]) else .ok []
    | .error .overlong => .error .overlong
    | .error _ => .ok []
  | .wildcard pattern :: more, p =>
    match fs.find? p with
    | some (.dir entries) => do
      let chosen := entries.filter fun (name, t) =>
        globMatch pattern name && (more.isEmpty || t.isDir)
      let found ← chosen.mapM fun (name, _) => globSelect fs more (p.append [name])
      return found.flatten
    | _ => .ok []

/-- The paths under a directory that match a pattern, in order. -/
def globUnder (fs : FileSystem) (pattern : String) (p : Path) : Except GlobError (List Path) :=
  match globParts? pattern with
  | none => .error .badPattern
  | some parts => (globSelect fs (.anyDepth :: parts) p).map Path.sort

end ExprLang
