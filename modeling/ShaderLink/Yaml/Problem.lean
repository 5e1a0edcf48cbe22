/-!
# Problems with YAML texts

A text may have no value because it is not well formed, or because it names something of the right
form that does not exist, such as the thirteenth month of a year.  It may also not be there to read.
-/

namespace ShaderLink.Yaml

/-- The most digits that a number may have. -/
def digitLimit : Nat := 4300

/-- Things that can be written down but do not exist. -/
inductive Impossible where
  /-- A number to a base without any digits. -/
  | noDigits (base : Nat)
  /-- A number with more digits than are read. -/
  | manyDigits (count : Nat)
  | year
  | month
  | day
  | hour
  | minute
  | second
  /-- A distance of a day or more from the common time, in minutes. -/
  | timeZone (minutes : Int)
  /-- A number behind the last character. -/
  | character
  /-- A number so far behind the last character that it is not looked up at all. -/
  | farCharacter
  /-- A number to the base sixty with a point, and with more places than double precision has. -/
  | hugeNumber
deriving DecidableEq, Repr

namespace Impossible

/-- A time in minutes as days and the seconds that are left. -/
def duration (minutes : Int) : String :=
  let days := minutes / 1440
  let seconds := minutes % 1440 * 60
  let parts := [("days", days), ("seconds", seconds)].filter fun p => p.2 != 0
  "datetime.timedelta(" ++ ", ".intercalate (parts.map fun p => s!"{p.1}={p.2}") ++ ")"

def message : Impossible → String
  | noDigits base => s!"invalid literal for int() with base {base}: ''"
  | manyDigits count =>
    s!"Exceeds the limit ({digitLimit} digits) for integer string conversion: value has {count} " ++
    "digits; use sys.set_int_max_str_digits() to increase the limit"
  | year => "year 0 is out of range"
  | month => "month must be in 1..12"
  | day => "day is out of range for month"
  | hour => "hour must be in 0..23"
  | minute => "minute must be in 0..59"
  | second => "second must be in 0..59"
  | timeZone minutes =>
    "offset must be a timedelta strictly between -timedelta(hours=24) and " ++
    s!"timedelta(hours=24), not {duration minutes}."
  | character => "chr() arg not in range(0x110000)"
  | farCharacter => "the number of a character is too large"
  | hugeNumber => "a number has too many places"

/-- The number does not fit into the form in which it is kept. -/
def isOverflow : Impossible → Bool
  | farCharacter | hugeNumber => true
  | _ => false

end Impossible

/-- Why a text has no value. -/
inductive Problem where
  | malformed
  | impossible (i : Impossible)
  /-- The bytes of a file do not stand for characters. -/
  | notText
deriving DecidableEq, Repr

end ShaderLink.Yaml
