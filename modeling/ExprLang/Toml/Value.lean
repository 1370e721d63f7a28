/-
The values of a TOML document, and the texts they are shown as.

Not every value can be shown: an integer may have too many digits, and values
may be nested too deeply in each other. `Value.fault?` is the first of these
that showing a value meets.
-/
import ExprLang.Double.Text
import ExprLang.Text.Quoted
import ExprLang.Toml.Moment

namespace ExprLang.Toml

/-- A value. Fields are in the order in which they were first written. -/
inductive Value where
  | string (text : String)
  | int (n : Int)
  | bool (b : Bool)
  | float (x : Double)
  | moment (m : Moment)
  | array (items : List Value)
  | table (fields : List (String × Value))

deriving instance Repr for Value

/-- The fields of a table. -/
abbrev Table := List (String × Value)

mutual

/-- A value as a message shows it, with its texts in quotes. -/
def Value.quoted : Value → String
  | .string text => Text.quoted text
  | .int n => toString n
  | .bool b => if b then "True" else "False"
  | .float x => x.text
  | .moment m => m.quoted
  | .array items => "[" ++ quotedItems items ++ "]"
  | .table fields => "\x7b" ++ quotedFields fields ++ "\x7d"

/-- Items with commas between them. -/
def quotedItems : List Value → String
  | [] => ""
  | [v] => v.quoted
  | v :: more => v.quoted ++ ", " ++ quotedItems more

/-- Fields with commas between them. -/
def quotedFields : List (String × Value) → String
  | [] => ""
  | [(k, v)] => Text.quoted k ++ ": " ++ v.quoted
  | (k, v) :: more => Text.quoted k ++ ": " ++ v.quoted ++ ", " ++ quotedFields more

end

/-! ## What cannot be shown -/

/-- Why a value cannot be shown. -/
inductive ShowError where
  /-- An integer has more digits than are written. -/
  | longInteger
  /-- Values are nested too deeply in each other. -/
  | tooDeep
deriving Repr, DecidableEq

/-- The greatest number of decimal digits that an integer is read or written with. -/
def integerDigits : Nat := 4300

/-- How far values may be nested in each other to be shown. -/
def showRoom : Nat := 980

mutual

/-- The first thing in a value that cannot be shown, with room for some levels of nesting. -/
def Value.fault? (room : Nat) : Value → Option ShowError
  | .int n => if integerDigits < (Nat.toDigits 10 n.natAbs).length then some .longInteger else none
  | .array items => if room = 0 then some .tooDeep else itemsFault? (room - 1) items
  | .table fields => if room = 0 then some .tooDeep else fieldsFault? (room - 1) fields
  | _ => none

/-- The first thing in items that cannot be shown. -/
def itemsFault? (room : Nat) : List Value → Option ShowError
  | [] => none
  | v :: more => v.fault? room <|> itemsFault? room more

/-- The first thing in fields that cannot be shown. -/
def fieldsFault? (room : Nat) : List (String × Value) → Option ShowError
  | [] => none
  | (_, v) :: more => v.fault? room <|> fieldsFault? room more

end

/-- A value as a message shows it, where it can be shown. -/
def Value.shown (v : Value) : Except ShowError String :=
  match v.fault? showRoom with
  | some e => .error e
  | none => .ok v.quoted

/-- A value as text: a text is itself, a moment has its usual form, and any
other value is as in a message. -/
def Value.text : Value → Except ShowError String
  | .string text => .ok text
  | .moment m => .ok m.text
  | v => v.shown

/-! ## Values as answers -/

/-- Whether a value counts as a yes: any but no, zero, and what is empty. -/
def Value.isTrue : Value → Bool
  | .string text => !text.isEmpty
  | .int n => n != 0
  | .bool b => b
  | .float x => !x.isZero
  | .moment _ => true
  | .array items => !items.isEmpty
  | .table fields => !fields.isEmpty

/-- Whether a value is a given text. -/
def Value.isText (v : Value) (text : String) : Bool :=
  match v with
  | .string t => t = text
  | _ => false

end ExprLang.Toml
