import CoolCompiler.Log.Record

/-!
# Clock times

How a record shows when it was made and how long a phase took.
-/

namespace CoolCompiler.Clock

/-- A number in decimal with zeros in front up to a width. -/
def padded (width n : Nat) : Text :=
  let digits := Text.decimal n
  List.replicate (width - digits.length) 48 ++ digits

structure Date where
  year : Nat
  month : Nat
  day : Nat
  deriving DecidableEq, Repr

/-- The date of a day, counted from the first of March of the year 0.  Years begin in March, so that
a leap day is the last. -/
def dateOfDay (day : Nat) : Date :=
  let era := day / 146097
  let inEra := day % 146097
  let year := (inEra - inEra / 1460 + inEra / 36524 - inEra / 146096) / 365
  let inYear := inEra - (365 * year + year / 4 - year / 100)
  let month := (5 * inYear + 2) / 153
  let dayOfMonth := inYear - (153 * month + 2) / 5 + 1
  if month < 10 then ⟨era * 400 + year, month + 3, dayOfMonth⟩
  else ⟨era * 400 + year + 1, month - 9, dayOfMonth⟩

/-- The days from the first of March of the year 0 to the first of January 1970. -/
def epochDay : Nat := 719468

/-- The universal time that lies some milliseconds after the beginning of 1970. -/
def timeText (milliseconds : Nat) : Text :=
  let seconds := milliseconds / 1000
  let date := dateOfDay (epochDay + seconds / 86400)
  padded 4 date.year ++ "-" ++ padded 2 date.month ++ "-" ++ padded 2 date.day ++ "T" ++
    padded 2 (seconds / 3600 % 24) ++ ":" ++ padded 2 (seconds / 60 % 60) ++ ":" ++
    padded 2 (seconds % 60) ++ "." ++ padded 3 (milliseconds % 1000) ++ "Z"

/-- The stamp of a record that is made at a time, some nanoseconds after a phase
began. -/
def stamp (milliseconds elapsed : Nat) : Stamp :=
  ⟨timeText milliseconds, Text.decimal elapsed ++ "ns", Text.decimal elapsed⟩

end CoolCompiler.Clock
