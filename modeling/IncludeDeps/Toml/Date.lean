import IncludeDeps.Toml.Text

/-!
# TOML dates and times

A date is written `1979-05-27`, a time `07:32:00` with an optional fraction of a second.  A date may
be followed by a time, parted from it by `T` or a blank, and a time after a date by an offset.

Four digits before a hyphen can only begin a date, and two digits before a colon only a time, so
that what does not go on as one is an error, while anything else may be a number.  `Start` tells the
two apart.
-/

namespace IncludeDeps.Toml

/-- The value of some decimal digits. -/
def decimalValue (digits : List Char) : Nat :=
  digits.foldl (fun n c => 10 * n + (c.toNat - 48)) 0

/-- The number of two digits at the front of a text, at most `top`. -/
def twoDigits (top : Nat) : List Char → Reading Nat
  | a :: b :: rest =>
    if a.isDigit ∧ b.isDigit ∧ decimalValue [a, b] ≤ top then some (decimalValue [a, b], rest)
    else none
  | _ => none

/-- Whether a year has a 29th of February. -/
def isLeapYear (year : Nat) : Bool := year % 4 == 0 && (year % 100 != 0 || year % 400 == 0)

/-- The number of days of a month, none for a number that is no month's. -/
def daysOf (year month : Nat) : Nat :=
  match month with
  | 2 => if isLeapYear year then 29 else 28
  | 4 | 6 | 9 | 11 => 30
  | 1 | 3 | 5 | 7 | 8 | 10 | 12 => 31
  | _ => 0

/-- The text after the minutes and seconds of a time, and after a fraction of a second. -/
def skipMinutes? (cs : List Char) : Option (List Char) := do
  match ← twoDigits 59 cs with
  | (_, ':' :: rest) =>
    let (_, rest) ← twoDigits 60 rest
    match rest with
    | '.' :: c :: after => return if c.isDigit then after.dropWhile Char.isDigit else rest
    | rest => return rest
  | _ => none

/-- What may stand at a place in a text: nothing of the kind, or a thing of the kind that is well
or badly formed. -/
inductive Start where
  /-- Something else stands there. -/
  | absent
  /-- It begins there and goes on badly. -/
  | malformed
  /-- It stands there, before this text. -/
  | before (rest : List Char)

/-- A time at the front of a text. -/
def timeAt (cs : List Char) : Start :=
  match twoDigits 23 cs with
  | some (_, ':' :: rest) =>
    match skipMinutes? rest with
    | some rest => .before rest
    | none => .malformed
  | _ => .absent

/-- The offset that may follow a time after a date. -/
def offsetAt : List Char → Start
  | 'Z' :: rest | 'z' :: rest => .before rest
  | '+' :: rest | '-' :: rest =>
    match twoDigits 23 rest with
    | some (_, ':' :: rest) =>
      match twoDigits 59 rest with
      | some (_, rest) => .before rest
      | none => .malformed
    | _ => .malformed
  | _ => .absent

/-- The time, with its offset, that may follow a date. -/
def timeAfterDate : List Char → Start
  | c :: rest =>
    if c = 'T' ∨ c = 't' ∨ c = ' ' then
      match timeAt rest with
      | .before rest =>
        match offsetAt rest with
        | .absent => .before rest
        | offset => offset
      | time => time
    else .absent
  | [] => .absent

/-- A date at the front of a text, with the time after it. -/
def dateAt : List Char → Start
  | a :: b :: c :: d :: '-' :: rest =>
    if [a, b, c, d].all Char.isDigit then
      match twoDigits 12 rest with
      | some (month, '-' :: rest) =>
        match twoDigits (daysOf (decimalValue [a, b, c, d]) month) rest with
        | some (0, _) | none => .malformed
        | some (_, rest) =>
          match timeAfterDate rest with
          | .absent => .before rest
          | time => time
      | _ => .malformed
    else .absent
  | _ => .absent

/-- A date or a time at the front of a text. -/
def dateOrTimeAt (cs : List Char) : Start :=
  match dateAt cs with
  | .absent => timeAt cs
  | date => date

end IncludeDeps.Toml
