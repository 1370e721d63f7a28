/-
The parts of a TOML document that hold no other values: blanks and comments,
texts, numbers, dates and times, and keys. Line ends are `\n` throughout.
-/
import ExprLang.Toml.Read
import ExprLang.Toml.Value

namespace ExprLang.Toml

open Read

/-! ## Blanks and comments -/

/-- Blanks within a line. -/
def isGap (c : Char) : Bool := c = ' ' || c = '\t'

/-- Blanks and line ends. -/
def isGapOrEnd (c : Char) : Bool := isGap c || c = '\n'

/-- Control characters, which no comment and no text may hold; a tab is none here. -/
def isForbidden (c : Char) : Bool := (c.toNat < 0x20 && c ≠ '\t') || c.toNat = 0x7f

/-- A comment, if there is one at the front. -/
def comment : Read Unit := do
  if (← head?) = some '#' then
    if (← takeWhile (· ≠ '\n')).any isForbidden then fail

/-- Blanks, line ends and comments, as they may stand between the items of an array. -/
def gaps : Nat → Read Unit
  | 0 => return ()
  | rounds + 1 => do
    skipWhile isGapOrEnd
    if (← head?) = some '#' then
      comment
      gaps rounds

/-! ## Texts -/

/-- The number that hexadecimal digits stand for. -/
def hexValue (digits : List Char) : Nat :=
  digits.foldl (fun n d =>
    16 * n + (if d.isDigit then d.toNat - '0'.toNat else d.toLower.toNat - 'a'.toNat + 10)) 0

/-- Whether a character is a hexadecimal digit. -/
def isHexDigit (c : Char) : Bool := c.isDigit || ('a' ≤ c.toLower && c.toLower ≤ 'f')

/-- A character written by its code in a number of hexadecimal digits. -/
def codedChar (width : Nat) : Read Char := fun cs =>
  let digits := cs.take width
  let n := hexValue digits
  if digits.length = width ∧ digits.all isHexDigit ∧ n.isValidChar then
    .ok (Char.ofNat n, cs.drop width)
  else .error .malformed

/-- What stands for itself after a backslash, or for a control character. -/
def plainEscape? : Char → Option Char
  | 'b' => some '\x08'
  | 't' => some '\t'
  | 'n' => some '\n'
  | 'f' => some '\x0c'
  | 'r' => some '\r'
  | '"' => some '"'
  | '\\' => some '\\'
  | _ => none

/-- What an escape stands for, after its backslash. In a text of several
lines a backslash at the end of a line joins it to the next word. -/
def escape (several : Bool) : Read (List Char) := fun
  | [] => .error .malformed
  | 'u' :: cs => (fun (c, rest) => ([c], rest)) <$> codedChar 4 cs
  | 'U' :: cs => (fun (c, rest) => ([c], rest)) <$> codedChar 8 cs
  | c :: cs =>
    match plainEscape? c with
    | some x => .ok ([x], cs)
    | none =>
      if several && isGapOrEnd c then
        match (c :: cs).dropWhile isGap with
        | [] => .ok ([], [])
        | x :: rest =>
          if x = '\n' then .ok ([], rest.dropWhile isGapOrEnd) else .error .malformed
      else .error .malformed

/-- The characters of a text in double quotes up to the closing ones, which
are three in a text of several lines. -/
def basicChars (several : Bool) : Nat → Read (List Char)
  | 0 => fail
  | rounds + 1 => fun
    | [] => .error .malformed
    | '"' :: cs =>
      if !several then .ok ([], cs)
      else if ['"', '"'].isPrefixOf cs then .ok ([], cs.drop 2)
      else (fun (r, rest) => ('"' :: r, rest)) <$> basicChars several rounds cs
    | '\\' :: cs => do
      let (x, cs) ← escape several cs
      let (r, rest) ← basicChars several rounds cs
      return (x ++ r, rest)
    | c :: cs =>
      if isForbidden c && !(several && c = '\n') then .error .malformed
      else (fun (r, rest) => (c :: r, rest)) <$> basicChars several rounds cs

/-- The characters up to three single quotes, which are dropped. -/
def untilQuotes : List Char → Except ReadError (List Char × List Char)
  | '\'' :: '\'' :: '\'' :: rest => .ok ([], rest)
  | c :: cs => (fun (r, rest) => (c :: r, rest)) <$> untilQuotes cs
  | [] => .error .malformed

/-- A text of several lines may end in one or two of its own quotes. -/
def trailingQuotes (quote : Char) : Read (List Char) := do
  if ← eat [quote] then
    if ← eat [quote] then return [quote, quote]
    else return [quote]
  else return []

/-- A text in double quotes on one line. -/
def basicText : Read (List Char) := do
  expect ['"']
  basicChars false (← size)

/-- A text in single quotes on one line, which has no escapes. -/
def literalText : Read (List Char) := do
  expect ['\'']
  let cs ← takeWhile (· ≠ '\'')
  expect ['\'']
  if cs.any isForbidden then fail
  return cs

/-- A text in three double quotes. A line end right after them is left out. -/
def basicLines : Read (List Char) := do
  expect ['"', '"', '"']
  let _ ← eat ['\n']
  let cs ← basicChars true (← size)
  return cs ++ (← trailingQuotes '"')

/-- A text in three single quotes. -/
def literalLines : Read (List Char) := do
  expect ['\'', '\'', '\'']
  let _ ← eat ['\n']
  let cs ← untilQuotes
  if cs.any fun c => isForbidden c && c ≠ '\n' then fail
  return cs ++ (← trailingQuotes '\'')

/-- A text in any of the four forms. -/
def text : Read String := fun cs =>
  let form :=
    if ['"', '"', '"'].isPrefixOf cs then basicLines
    else if ['\'', '\'', '\''].isPrefixOf cs then literalLines
    else if cs.head? = some '"' then basicText
    else literalText
  (fun (r, rest) => (String.ofList r, rest)) <$> form cs

/-! ## Dates and times -/

/-- A number of two digits between two bounds. -/
def twoDigits (least greatest : Nat) : Read Nat := fun
  | a :: b :: rest =>
    let n := 10 * (a.toNat - '0'.toNat) + (b.toNat - '0'.toNat)
    if a.isDigit && b.isDigit && least ≤ n && n ≤ greatest then .ok (n, rest)
    else .error .malformed
  | _ => .error .malformed

/-- The number that decimal digits stand for. -/
def digitsValue (ds : List Char) : Nat :=
  ds.foldl (fun n d => 10 * n + (d.toNat - '0'.toNat)) 0

/-- The microseconds in the digits behind a second; further digits are left out. -/
def microseconds (ds : List Char) : Nat :=
  digitsValue (ds.take 6) * Nat.pow 10 (6 - ds.length)

/-- The part of a second that may follow it. -/
def secondPart : Read Nat := fun
  | '.' :: d :: rest =>
    if d.isDigit then
      .ok (microseconds (d :: rest.takeWhile Char.isDigit), rest.dropWhile Char.isDigit)
    else .ok (0, '.' :: d :: rest)
  | cs => .ok (0, cs)

/-- A time of day. -/
def time : Read Time := do
  let hour ← twoDigits 0 23
  expect [':']
  let minute ← twoDigits 0 59
  expect [':']
  let second ← twoDigits 0 59
  return ⟨hour, minute, second, ← secondPart⟩

/-- A distance from universal time, in minutes. -/
def offset : Read Int := do
  if (← eat ['Z']) || (← eat ['z']) then return 0
  let west ← eat ['-']
  if !west then expect ['+']
  let hours ← twoDigits 0 23
  expect [':']
  let minutes : Int := 60 * hours + (← twoDigits 0 59)
  return if west then -minutes else minutes

/-- The number of days in a month. -/
def daysIn (year month : Nat) : Nat :=
  if month = 2 then
    if year % 4 = 0 ∧ (year % 100 ≠ 0 ∨ year % 400 = 0) then 29 else 28
  else if month = 4 ∨ month = 6 ∨ month = 9 ∨ month = 11 then 30
  else 31

/-- A date. There need not be such a day. -/
def date : Read Date := do
  let century ← twoDigits 0 99
  let year ← twoDigits 0 99
  expect ['-']
  let month ← twoDigits 1 12
  expect ['-']
  let day ← twoDigits 1 31
  return ⟨100 * century + year, month, day⟩

/-- Whether there is such a day. -/
def Date.isDay (d : Date) : Bool := 0 < d.year && d.day ≤ daysIn d.year d.month

/-- The time that may follow a date, with its distance from universal time. -/
def timeAfterDate : Read (Time × Option Int) := do
  if (← eat ['T']) || (← eat ['t']) || (← eat [' ']) then
    let t ← time
    return (t, ← optionally offset)
  else fail

/-- A date, a time, or both. The result is absent where there is none at the
front, and the reading fails where there is one that names no day. -/
def moment : Read (Option Moment) := do
  match ← optionally date with
  | some d =>
    if !d.isDay then fail
    match ← optionally timeAfterDate with
    | some (t, o) => return some (.both d t o)
    | none => return some (.date d)
  | none => return (← optionally time).map .time

/-! ## Numbers -/

/-- Digits after the first, each with at most one underscore in front; the underscores go. -/
def moreDigits (p : Char → Bool) : List Char → List Char × List Char
  | [] => ([], [])
  | '_' :: d :: cs =>
    if p d then
      let (ds, rest) := moreDigits p cs
      (d :: ds, rest)
    else ([], '_' :: d :: cs)
  | d :: cs =>
    if p d then
      let (ds, rest) := moreDigits p cs
      (d :: ds, rest)
    else ([], d :: cs)

/-- At least one digit. -/
def digits (p : Char → Bool) : Read (List Char) := fun
  | [] => .error .malformed
  | d :: cs =>
    if p d then
      let (ds, rest) := moreDigits p cs
      .ok (d :: ds, rest)
    else .error .malformed

/-- The number that digits of a base stand for. -/
def baseValue (base : Nat) (ds : List Char) : Nat :=
  ds.foldl (fun n d => base * n + hexValue [d]) 0

/-- An integer in one of the bases that are marked by letters. -/
def basedInt : Read Nat := do
  if ← eat ['0', 'x'] then return baseValue 16 (← digits isHexDigit)
  else if ← eat ['0', 'o'] then return baseValue 8 (← digits fun c => '0' ≤ c && c ≤ '7')
  else if ← eat ['0', 'b'] then return baseValue 2 (← digits fun c => c = '0' || c = '1')
  else fail

/-- The sign that may stand in front of a number: whether it is a minus. -/
def sign : Read Bool := do
  if ← eat ['-'] then return true
  let _ ← eat ['+']
  return false

/-- The whole part of a decimal number: a zero, or digits that begin with none. -/
def wholePart : Read (List Char) := do
  if ← eat ['0'] then return ['0']
  else digits Char.isDigit

/-- The digits after a decimal point. -/
def fraction : Read (List Char) := do
  expect ['.']
  digits Char.isDigit

/-- The exponent of a fractional number. -/
def exponent : Read Int := do
  if !(← eat ['e']) then expect ['E']
  let negative ← sign
  let n : Int := digitsValue (← digits Char.isDigit)
  return if negative then -n else n

/-- A decimal number: an integer unless a fraction or an exponent follows. -/
def decimal : Read Value := do
  let negative ← sign
  let whole ← wholePart
  let behind ← optionally fraction
  let scale ← optionally exponent
  if behind.isNone && scale.isNone then
    if integerDigits < whole.length then throw (.longInteger whole.length)
    let n : Int := digitsValue whole
    return .int (if negative then -n else n)
  else
    let behind := behind.getD []
    return .float (Double.ofDecimal negative (digitsValue (whole ++ behind))
      (scale.getD 0 - behind.length))

/-- The fractional numbers that are written as words. -/
def specialNumber : Read Double := do
  let negative ← sign
  if ← eat ['i', 'n', 'f'] then return .infinite negative
  else
    expect ['n', 'a', 'n']
    return .nan

/-- A number of any form. -/
def number : Read Value := do
  match ← optionally basedInt with
  | some n => return .int n
  | none =>
    match ← optionally specialNumber with
    | some x => return .float x
    | none => decimal

/-! ## Keys -/

/-- The characters of a key without quotes. -/
def isBareKeyChar (c : Char) : Bool := c.isAlphanum || c = '-' || c = '_'

/-- One part of a key. -/
def keyPart : Read String := do
  match ← head? with
  | some '"' => return String.ofList (← basicText)
  | some '\'' => return String.ofList (← literalText)
  | _ =>
    let part ← takeWhile isBareKeyChar
    if part.isEmpty then fail
    return String.ofList part

/-- The parts of a key after the first, each behind a dot, with the blanks around them. -/
def moreKeyParts : Nat → Read (List String)
  | 0 => fail
  | rounds + 1 => do
    skipWhile isGap
    if ← eat ['.'] then
      skipWhile isGap
      let part ← keyPart
      return part :: (← moreKeyParts rounds)
    else return []

/-- A key: its first part and the parts behind dots. -/
def key : Read (List String) := do
  let part ← keyPart
  return part :: (← moreKeyParts ((← size) + 1))

end ExprLang.Toml
