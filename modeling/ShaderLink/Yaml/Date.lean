import ShaderLink.Yaml.Number

/-!
# Dates in YAML texts

A date is a day of a year, alone or with a time of that day, which may tell its distance from the
common time.  `Date.problem?` finds the first part that does not exist.
-/

namespace ShaderLink.Yaml

open Pattern

/-- The parts of a date. -/
structure Date where
  year : Nat
  month : Nat
  day : Nat
  /-- Hour, minute and second. -/
  time : Option (Nat × Nat × Nat) := none
  /-- The distance from the common time in minutes. -/
  zone : Int := 0
deriving DecidableEq, Repr

namespace Date

/-! ## Forms -/

def twoDigits : Pattern := digit ++ digit
def fourDigits : Pattern := twoDigits ++ twoDigits
def oneOrTwoDigits : Pattern := digit ++ optional digit

/-- A date alone: year (1), month (2) and day (3). -/
def dayForm : Pattern :=
  group 1 fourDigits ++ lit '-' ++ group 2 twoDigits ++ lit '-' ++ group 3 twoDigits

/-- The zone of a time: the letter of the common time, or a sign (7), hours (8) and minutes (9). -/
def zoneForm : Pattern :=
  many (oneOf " \t") ++
  either (lit 'Z')
    (group 7 (oneOf "-+") ++ group 8 oneOrTwoDigits ++ optional (lit ':' ++ group 9 twoDigits))

/-- A date with a time: year (1), month (2), day (3), hour (4), minute (5) and second (6). -/
def timeForm : Pattern :=
  group 1 fourDigits ++ lit '-' ++ group 2 oneOrTwoDigits ++ lit '-' ++ group 3 oneOrTwoDigits ++
  either (oneOf "Tt") (many1 (oneOf " \t")) ++ group 4 oneOrTwoDigits ++ lit ':' ++
  group 5 twoDigits ++ lit ':' ++ group 6 twoDigits ++ optional (lit '.' ++ many digit) ++
  optional zoneForm

/-- The parts of a text that has the form of a date. -/
def ofText? (t : Text) : Option Date := do
  let m ← (matched? dayForm t).or (matched? timeForm t)
  let part (n : Nat) : Nat := decimal (m.group n)
  let zone : Int := part 8 * 60 + part 9
  return {
    year := part 1
    month := part 2
    day := part 3
    time := (m.group? 4).map fun _ => (part 4, part 5, part 6)
    zone := if m.group 7 = ['-'] then -zone else zone }

/-! ## Existence -/

/-- A year with a day more. -/
def isLeapYear (year : Nat) : Bool := year % 4 == 0 && (year % 100 != 0 || year % 400 == 0)

/-- The number of days of a month. -/
def daysIn (year : Nat) : (month : Nat) → Nat
  | 2 => if isLeapYear year then 29 else 28
  | 4 | 6 | 9 | 11 => 30
  | _ => 31

/-- The first part of a date that does not exist: the zone counts before all others, and then each
part before smaller ones. -/
def problem? (d : Date) : Option Impossible :=
  let (hour, minute, second) := d.time.getD (0, 0, 0)
  if 1440 ≤ d.zone.natAbs then some (.timeZone d.zone)
  else if d.year = 0 then some .year
  else if d.month = 0 || 12 < d.month then some .month
  else if d.day = 0 || daysIn d.year d.month < d.day then some .day
  else if 23 < hour then some .hour
  else if 59 < minute then some .minute
  else if 59 < second then some .second
  else none

end Date

end ShaderLink.Yaml
