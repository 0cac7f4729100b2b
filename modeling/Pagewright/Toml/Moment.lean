import Pagewright.Json.Reader
import Pagewright.Toml.Error

/-!
# Dates and times

A date, a time of day, or both together (`Toml.Moment`). With both there may be an offset from
universal time. What is read must be on the calendar, a leap second aside, and `Moment.text` writes
it in one normal form, whichever way it was written.
-/

namespace Pagewright

namespace Toml

/-- A day of the calendar. -/
structure Date where
  year : Nat
  month : Nat
  day : Nat
  deriving Repr, DecidableEq

/-- A time of day. -/
structure Time where
  hour : Nat
  minute : Nat
  second : Nat
  /-- The digits behind the point, at most nine and without zeros at the end. -/
  fraction : Text
  deriving Repr, DecidableEq

/-- How far a clock is from universal time. -/
inductive Offset where
  | universal
  | minutes (ahead : Int)
  deriving Repr, DecidableEq

/-- A date, a time or both. -/
inductive Moment where
  | date (date : Date)
  | time (time : Time)
  | both (date : Date) (time : Time) (offset : Option Offset)
  deriving Repr, DecidableEq

/-! ## Writing -/

/-- A number of at least `width` digits. -/
def padded (width n : Nat) : Text :=
  let digits := Nat.toDigits 10 n
  List.replicate (width - digits.length) '0' ++ digits

/-- The text of a date. -/
def Date.text (date : Date) : Text :=
  padded 4 date.year ++ "-" ++ padded 2 date.month ++ "-" ++ padded 2 date.day

/-- The text of a time. -/
def Time.text (time : Time) : Text :=
  padded 2 time.hour ++ ":" ++ padded 2 time.minute ++ ":" ++ padded 2 time.second
    ++ (if time.fraction = [] then [] else '.' :: time.fraction)

/-- The text of an offset. -/
def Offset.text : Offset → Text
  | .universal => ['Z']
  | .minutes ahead =>
    (if ahead < 0 then '-' else '+') :: padded 2 (ahead.natAbs / 60) ++ ":"
      ++ padded 2 (ahead.natAbs % 60)

/-- The text of a moment. -/
def Moment.text : Moment → Text
  | .date d => d.text
  | .time t => t.text
  | .both d t offset => d.text ++ "T" ++ t.text ++ (offset.map Offset.text).getD []

/-! ## Reading -/

/-- Whether February has a day more. -/
def isLeap (year : Nat) : Bool :=
  year % 4 = 0 && (year % 100 ≠ 0 || year % 400 = 0)

/-- How many days a month has. -/
def daysOf (year month : Nat) : Nat :=
  if month = 2 then if isLeap year then 29 else 28
  else if month = 4 || month = 6 || month = 9 || month = 11 then 30
  else 31

/-- A number of exactly `width` digits that lies between two bounds, and the text behind it. -/
def readBounded? (width low high : Nat) (text : Text) : Option (Nat × Text) :=
  let digits := text.take width
  let n := Json.ofDigits digits
  if digits.length = width && digits.all Char.isDigit && low ≤ n && n ≤ high then
    some (n, text.drop width)
  else none

/-- A date. Four digits and a dash start one, and then the rest of it must follow. -/
def readDate? (text : Text) : Option (Except Error (Date × Text)) :=
  match readBounded? 4 0 9999 text with
  | some (year, '-' :: rest) =>
    let date : Option (Date × Text) := do
      let (month, rest) ← readBounded? 2 1 12 rest
      let rest ← rest.after? "-"
      let (day, rest) ← readBounded? 2 1 (daysOf year month) rest
      return ({ year, month, day }, rest)
    some (date.elim (.error .badMoment) .ok)
  | _ => none

/-- The digits behind a point, of which nine count, and the text behind them. -/
def readFraction (text : Text) : Text × Text :=
  match text with
  | '.' :: rest =>
    let (digits, behind) := Json.digits rest
    if digits = [] then ([], text)
    else (((digits.take 9).reverse.dropWhile (· = '0')).reverse, behind)
  | _ => ([], text)

/-- A time. An hour and a colon start one, and then the rest of it must follow. -/
def readTime? (text : Text) : Option (Except Error (Time × Text)) :=
  match readBounded? 2 0 23 text with
  | some (hour, ':' :: rest) =>
    let time : Option (Time × Text) := do
      let (minute, rest) ← readBounded? 2 0 59 rest
      let rest ← rest.after? ":"
      let (second, rest) ← readBounded? 2 0 60 rest
      let (fraction, rest) := readFraction rest
      return ({ hour, minute, second, fraction }, rest)
    some (time.elim (.error .badMoment) .ok)
  | _ => none

/-- An offset, if there is one. A sign starts one, and then an hour and a minute must follow. -/
def readOffset (text : Text) : Except Error (Option Offset × Text) :=
  let clock (sign : Int) (text : Text) : Except Error (Option Offset × Text) :=
    let offset : Option (Option Offset × Text) := do
      let (hours, rest) ← readBounded? 2 0 23 text
      let rest ← rest.after? ":"
      let (minutes, rest) ← readBounded? 2 0 59 rest
      return (some (.minutes (sign * (hours * 60 + minutes))), rest)
    offset.elim (.error .badMoment) .ok
  match text with
  | 'Z' :: rest => .ok (some .universal, rest)
  | 'z' :: rest => .ok (some .universal, rest)
  | '+' :: rest => clock 1 rest
  | '-' :: rest => clock (-1) rest
  | _ => .ok (none, text)

/-- What follows a date: a time behind one more character, or nothing that belongs to it. -/
def readBehindDate (date : Date) (text : Text) : Except Error (Moment × Text) :=
  match text with
  | c :: rest =>
    if c = 'T' || c = 't' || c = ' ' then
      match readTime? rest with
      | some time => do
        let (time, rest) ← time
        let (offset, rest) ← readOffset rest
        return (.both date time offset, rest)
      | none => .ok (.date date, text)
    else .ok (.date date, text)
  | [] => .ok (.date date, text)

/-- A moment; `none` where none starts. -/
def readMoment? (text : Text) : Option (Except Error (Moment × Text)) :=
  match readDate? text with
  | some date =>
    some (date.bind fun (date, rest) => readBehindDate date rest)
  | none => (readTime? text).map fun time => time.map fun (time, rest) => (.time time, rest)

end Toml

end Pagewright
