/-
Dates and times of day, and the two forms in which they are shown.

`text` is the usual form with hyphens and colons. `quoted`, for messages, is
an expression that names the parts. Parts of a second are microseconds; where
they are zero they are not shown.
-/
namespace ExprLang.Toml

/-- A day of the calendar. -/
structure Date where
  year : Nat
  month : Nat
  day : Nat
deriving Repr, DecidableEq

/-- A time of day. -/
structure Time where
  hour : Nat
  minute : Nat
  second : Nat
  microsecond : Nat
deriving Repr, DecidableEq

/-- A date, a time of day, or both. -/
inductive Moment where
  | date (d : Date)
  | time (t : Time)
  /-- A time on a day, with its distance from universal time in minutes where it is known. -/
  | both (d : Date) (t : Time) (offset : Option Int)
deriving Repr, DecidableEq

/-- A number with zeros in front up to a width. -/
def padded (width n : Nat) : String :=
  let digits := Nat.toDigits 10 n
  String.ofList (List.replicate (width - digits.length) '0' ++ digits)

/-! ## Usual form -/

/-- A date as year, month and day. -/
def Date.text (d : Date) : String :=
  padded 4 d.year ++ "-" ++ padded 2 d.month ++ "-" ++ padded 2 d.day

/-- A time as hours, minutes and seconds. -/
def Time.text (t : Time) : String :=
  padded 2 t.hour ++ ":" ++ padded 2 t.minute ++ ":" ++ padded 2 t.second ++
    if t.microsecond = 0 then "" else "." ++ padded 6 t.microsecond

/-- A distance from universal time as a sign, hours and minutes. -/
def offsetText (minutes : Int) : String :=
  (if minutes < 0 then "-" else "+") ++
    padded 2 (minutes.natAbs / 60) ++ ":" ++ padded 2 (minutes.natAbs % 60)

/-- A moment in its usual form. -/
def Moment.text : Moment → String
  | .date d => d.text
  | .time t => t.text
  | .both d t offset => d.text ++ " " ++ t.text ++ (offset.map offsetText).getD ""

/-! ## Form for messages -/

/-- The parts of a date. -/
def Date.parts (d : Date) : List Nat := [d.year, d.month, d.day]

/-- The parts of a time; seconds and microseconds only as far as they are not zero. -/
def Time.parts (t : Time) : List Nat :=
  [t.hour, t.minute] ++
    if t.microsecond ≠ 0 then [t.second, t.microsecond]
    else if t.second ≠ 0 then [t.second]
    else []

/-- Numbers with commas between them. -/
def listed (parts : List Nat) : String := ", ".intercalate (parts.map toString)

/-- A distance from universal time. One to the west is a day back and the
seconds from there. -/
def offsetQuoted (minutes : Int) : String :=
  if minutes = 0 then "datetime.timezone.utc"
  else
    let span :=
      if minutes < 0 then "days=-1, seconds=" ++ toString (86400 + 60 * minutes)
      else "seconds=" ++ toString (60 * minutes)
    "datetime.timezone(datetime.timedelta(" ++ span ++ "))"

/-- The word for the kind of a moment. -/
def Moment.kindName : Moment → String
  | .date _ => "datetime.date"
  | .time _ => "datetime.time"
  | .both _ _ _ => "datetime.datetime"

/-- A moment as a message shows it. -/
def Moment.quoted (m : Moment) : String :=
  let inside := match m with
    | .date d => listed d.parts
    | .time t => listed t.parts
    | .both d t offset =>
      listed (d.parts ++ t.parts) ++
        (offset.map fun o => ", tzinfo=" ++ offsetQuoted o).getD ""
  m.kindName ++ "(" ++ inside ++ ")"

end ExprLang.Toml
