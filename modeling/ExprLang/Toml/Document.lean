/-
Reading a TOML document into a table.

While a document is read, its tables carry how they came to be, which
decides who may still write into them: a table that only came about on the
way to another one may be declared later, one that has been declared may not
be declared again, and one written through dotted keys is closed to them as
soon as the next header is read. Values written on the right of an `=` are
closed at once.
-/
import ExprLang.Toml.Scalar

namespace ExprLang.Toml

open Read

/-! ## Tables under construction -/

/-- How a table came to be. -/
inductive Origin where
  /-- On the way to a table declared by a header. -/
  | implied
  /-- Through dotted keys, in the section of a number. -/
  | dotted (part : Nat)
  /-- By a header of its own. -/
  | header
deriving Repr, DecidableEq

/-- What a key stands for while the document is read. -/
inductive Node where
  | value (v : Value)
  | table (origin : Origin) (fields : List (String × Node))
  /-- An array of tables: the finished ones, and the fields of the last. -/
  | tables (finished : List Value) (fields : List (String × Node))

/-- Keys and what they stand for, in the order in which they were written. -/
abbrev Fields := List (String × Node)

mutual

/-- The value of a finished node. -/
def Node.close : Node → Value
  | .value v => v
  | .table _ fields => .table (closeFields fields)
  | .tables finished fields => .array (finished ++ [.table (closeFields fields)])

/-- The values of finished fields. -/
def closeFields : List (String × Node) → Table
  | [] => []
  | (k, n) :: more => (k, n.close) :: closeFields more

end

/-- Changes what a key stands for; a new key comes last. Fails where the change does. -/
def Fields.alter (k : String) (f : Option Node → Option Node) : Fields → Option Fields
  | [] => do return [(k, ← f none)]
  | (k', n) :: more =>
    if k' = k then do return (k, ← f (some n)) :: more
    else do return (k', n) :: (← Fields.alter k f more)

/-- Changes the fields at the end of a path. Tables that are not there yet
are implied; of an array of tables the last one counts. -/
def Fields.within (change : Fields → Option Fields) : List String → Fields → Option Fields
  | [], fields => change fields
  | k :: path, fields =>
    fields.alter k fun
      | none => do return .table .implied (← Fields.within change path [])
      | some (.table o inner) => do return .table o (← Fields.within change path inner)
      | some (.tables done inner) => do return .tables done (← Fields.within change path inner)
      | some (.value _) => none

/-- Declares a table by a header. -/
def Fields.declare (path : List String) (k : String) : Fields → Option Fields :=
  Fields.within (fun fields => fields.alter k fun
    | none => some (.table .header [])
    | some (.table .implied inner) => some (.table .header inner)
    | _ => none) path

/-- Adds a table to an array of tables by a header. -/
def Fields.append (path : List String) (k : String) : Fields → Option Fields :=
  Fields.within (fun fields => fields.alter k fun
    | none => some (.tables [] [])
    | some (.tables finished last) => some (.tables (finished ++ [.table (closeFields last)]) [])
    | _ => none) path

/-- Writes a value under a dotted key, in the section of a number. -/
def Fields.assign (part : Nat) (v : Value) : List String → Fields → Option Fields
  | [], _ => none
  | [k], fields =>
    fields.alter k fun
      | none => some (.value v)
      | some _ => none
  | k :: path, fields =>
    fields.alter k fun
      | none => do return .table (.dotted part) (← Fields.assign part v path [])
      | some (.table o inner) =>
        if o = .implied ∨ o = .dotted part then do
          return .table (.dotted part) (← Fields.assign part v path inner)
        else none
      | some _ => none

/-! ## Values -/

/-- The items of an array after its opening bracket, one at least. A comma
may follow the last one. -/
def arrayItems (value : Read Value) : Nat → Read (List Value)
  | 0 => fail
  | rounds + 1 => do
    let v ← value
    gaps (← size)
    if ← eat [']'] then return [v]
    else
      expect [',']
      gaps (← size)
      if ← eat [']'] then return [v]
      else return v :: (← arrayItems value rounds)

/-- An array. -/
def array (value : Read Value) : Read Value := do
  expect ['[']
  gaps (← size)
  if ← eat [']'] then return .array []
  else return .array (← arrayItems value (← size))

/-- A key with its value. -/
def pair (value : Read Value) : Read (List String × Value) := do
  let path ← key
  expect ['=']
  skipWhile isGap
  return (path, ← value)

/-- The fields of an inline table after its opening brace, one at least. No
comma may follow the last one. -/
def inlineFields (value : Read Value) : Nat → Fields → Read Fields
  | 0, _ => fail
  | rounds + 1, fields => do
    let (path, v) ← pair value
    let fields ← need (fields.assign 0 v path)
    skipWhile isGap
    if ← eat ['\x7d'] then return fields
    else
      expect [',']
      skipWhile isGap
      inlineFields value rounds fields

/-- An inline table. -/
def inlineTable (value : Read Value) : Read Value := do
  expect ['\x7b']
  skipWhile isGap
  if ← eat ['\x7d'] then return .table []
  else return .table (closeFields (← inlineFields value (← size) []))

/-- How far values may be nested in each other to be read. An array takes two
of it, and an inline table three. -/
def readRoom : Nat := 980

/-- A value, told by its first character. -/
def value : (room : Nat) → Read Value
  | room + 3 => do
    match ← head? with
    | some '"' | some '\'' => return .string (← text)
    | some '[' => array (value (room + 1))
    | some '\x7b' => inlineTable (value room)
    | _ =>
      if ← eat ['t', 'r', 'u', 'e'] then return .bool true
      else if ← eat ['f', 'a', 'l', 's', 'e'] then return .bool false
      else match ← moment with
        | some m => return .moment m
        | none => number
  | _ => throw .tooDeep

/-! ## Documents -/

/-- A document up to a line: its fields, the path of the table that the
section is about, and the number of the section. -/
structure Draft where
  fields : Fields
  path : List String
  part : Nat

/-- A header: the path of a table or, in double brackets, of an array of tables. -/
def header (d : Draft) : Read Draft := do
  let array ← eat ['[', '[']
  if !array then expect ['[']
  skipWhile isGap
  let path ← key
  let last := path.getLast?.getD ""
  let change := if array then Fields.append else Fields.declare
  let fields ← need (change path.dropLast last d.fields)
  expect (if array then [']', ']'] else [']'])
  return ⟨fields, path, d.part + 1⟩

/-- A key with its value, written into the table of the section. -/
def assignment (d : Draft) : Read Draft := do
  let (path, v) ← pair (value readRoom)
  let fields ← need (d.fields.within (Fields.assign d.part v path) d.path)
  return { d with fields }

/-- What a line holds, which may be nothing. -/
def lineContent (d : Draft) : Read Draft := do
  match ← head? with
  | none | some '\n' | some '#' => return d
  | some '[' => header d
  | some _ => assignment d

/-- The lines up to the end of the text. -/
def documentLines : Nat → Draft → Read Draft
  | 0, _ => fail
  | rounds + 1, d => do
    skipWhile isGap
    let d ← lineContent d
    skipWhile isGap
    comment
    match ← head? with
    | none => return d
    | some _ =>
      expect ['\n']
      documentLines rounds d

/-- A document, with every `\r\n` read as `\n`. -/
def joinLineEnds : List Char → List Char
  | '\r' :: '\n' :: rest => '\n' :: joinLineEnds rest
  | c :: rest => c :: joinLineEnds rest
  | [] => []

/-- The table in a document. -/
def parse (source : String) : Except ReadError Table :=
  let cs := joinLineEnds source.toList
  (documentLines (cs.length + 1) ⟨[], [], 0⟩ cs).map fun (d, _) => closeFields d.fields

end ExprLang.Toml
