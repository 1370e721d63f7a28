/-
Readers of a TOML document.

A reader takes what it reads from the front of the characters, and fails
where it does not find it. Besides being malformed, a document may be too
much: an integer may have too many digits, and values may be nested too
deeply in each other.
-/
namespace ExprLang.Toml

/-- Why a document cannot be read. -/
inductive ReadError where
  | malformed
  /-- An integer has that many digits, which are too many. -/
  | longInteger (digits : Nat)
  /-- Values are nested too deeply in each other. -/
  | tooDeep
deriving Repr, DecidableEq

/-- A reader of values of a type from the front of a text. -/
abbrev Read (α : Type) := StateT (List Char) (Except ReadError) α

namespace Read

variable {α β : Type}

/-- The document is malformed. -/
def fail : Read α := throw .malformed

/-- What is present, or else the document is malformed. -/
def need : Option α → Read α
  | some a => return a
  | none => fail

/-- Reads a part if it is there, and says whether it was. -/
def optionally (part : Read α) : Read (Option α) := fun cs =>
  match part cs with
  | .ok (a, rest) => .ok (some a, rest)
  | .error _ => .ok (none, cs)

/-- The character at the front, which stays. -/
def head? : Read (Option Char) := fun cs => .ok (cs.head?, cs)

/-- The longest front part whose characters all pass a test. -/
def takeWhile (p : Char → Bool) : Read (List Char) := fun cs =>
  .ok (cs.takeWhile p, cs.dropWhile p)

/-- Drops the longest front part whose characters all pass a test. -/
def skipWhile (p : Char → Bool) : Read Unit := fun cs => .ok ((), cs.dropWhile p)

/-- Takes the given characters if they are at the front, and says whether they were. -/
def eat (word : List Char) : Read Bool := fun cs =>
  if word.isPrefixOf cs then .ok (true, cs.drop word.length) else .ok (false, cs)

/-- Takes the given characters. -/
def expect (word : List Char) : Read Unit := do
  if ← eat word then return ()
  else fail

/-- How many characters are left. No loop of a reader goes round more often. -/
def size : Read Nat := fun cs => .ok (cs.length, cs)

end Read

end ExprLang.Toml
