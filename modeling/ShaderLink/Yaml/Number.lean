import ShaderLink.Pattern.Search
import ShaderLink.Yaml.Problem

/-!
# Numbers in YAML texts

The forms of numbers, and which of them are zero.  A number with a point is zero if it is at most
half of the least positive number in double precision, `2 ^ (-1075)`.
-/

namespace ShaderLink.Yaml

open Pattern

/-- One of a list of patterns. -/
def anyOf : List Pattern → Pattern
  | [] => one fun _ => false
  | [p] => p
  | p :: ps => either p (anyOf ps)

/-- The whole text as a match of the form. -/
def matched? (form : Pattern) (t : Text) : Option Match :=
  (form ++ textEnd).here none 0 t.length t

/-- The whole text has the form. -/
def hasForm (form : Pattern) (t : Text) : Bool := (matched? form t).isSome

/-! ## Forms -/

def sign : Pattern := optional (oneOf "+-")
def digit : Pattern := one Char.isDigit
def digits : Pattern := many (one fun c => c.isDigit || c == '_')
def sixties : Pattern := many1 (lit ':' ++ optional (oneOf "012345") ++ digit)

/-- Whole numbers: binary, octal, decimal, hexadecimal, and to the base sixty. -/
def wholeForm : Pattern :=
  anyOf
    [sign ++ phrase "0b" ++ many1 (oneOf "01_"),
     sign ++ lit '0' ++ many1 (oneOf "01234567_"),
     sign ++ either (lit '0') (oneOf "123456789" ++ digits),
     sign ++ phrase "0x" ++ many1 (oneOf "0123456789abcdefABCDEF_"),
     sign ++ oneOf "123456789" ++ digits ++ sixties]

def exponent : Pattern := optional (oneOf "eE" ++ oneOf "-+" ++ many1 digit)

/-- Numbers with a point. -/
def fractionForm : Pattern :=
  anyOf
    [sign ++ digit ++ digits ++ lit '.' ++ digits ++ exponent,
     lit '.' ++ digit ++ digits ++ exponent,
     sign ++ digit ++ digits ++ sixties ++ lit '.' ++ digits]

/-- Numbers that are not finite. -/
def infiniteForm : Pattern :=
  anyOf
    [sign ++ lit '.' ++ anyOf (["inf", "Inf", "INF"].map phrase),
     lit '.' ++ anyOf (["nan", "NaN", "NAN"].map phrase)]

/-! ## Digits -/

/-- The number that digits stand for; other characters do not count. -/
def decimal (t : Text) : Nat :=
  (t.filter Char.isDigit).foldl (fun n c => 10 * n + (c.toNat - 48)) 0

/-- The number that digits stand for, unless they are too many. -/
def decimal? (t : Text) : Except Impossible Nat :=
  if t.length ≤ digitLimit then .ok (decimal t) else .error (.manyDigits t.length)

/-! ## Zero -/

/-- A text without the signs in front of it and without underscores. -/
def bare (t : Text) : Text :=
  (t.dropWhile fun c => c == '+' || c == '-').filter (· != '_')

/-- All digits are zero. -/
def isAllZero (t : Text) : Bool := t.all (· == '0')

/-- Whether a whole number is zero; without digits there is no number, and too many of them make
none if they are decimal. -/
def isZeroWhole (t : Text) : Except Impossible Bool :=
  match bare t with
  | ['0', 'b'] => .error (.noDigits 2)
  | ['0', 'x'] => .error (.noDigits 16)
  | '0' :: 'b' :: t | '0' :: 'x' :: t | '0' :: t => .ok (isAllZero t)
  | t => (decimal? (t.takeWhile (· != ':'))).map (· == 0)

/-- The number `10 ^ scale` times the number of the digits is at most `2 ^ (-1075)`.  It is less than
`10 ^ n` and at least `10 ^ (n - 1)`, where `n` is the number of digits behind leading zeros plus
the scale; therefore the two numbers have to be compared for `n = -323` only. -/
def isNegligible (digits : Text) (scale : Int) : Bool :=
  let digits := digits.dropWhile (· == '0')
  let n := digits.length + scale
  digits.isEmpty || n < -323 ||
    (n = -323 && decimal digits * Nat.pow 2 1075 ≤ Nat.pow 10 (-scale).toNat)

/-- A number with a point, and perhaps a power of ten behind it, is zero. -/
def isZeroDecimal (t : Text) : Bool :=
  let mantissa := t.takeWhile fun c => c != 'e' && c != 'E'
  let fraction := (mantissa.dropWhile (· != '.')).drop 1
  let power := t.drop (mantissa.length + 1)
  let shift : Int := decimal power
  isNegligible (mantissa.filter (· != '.'))
    ((if power.head? = some '-' then -shift else shift) - fraction.length)

/-- The most places of a number to the base sixty: the power of sixty that belongs to one more place
would not fit into double precision. -/
def placeLimit : Nat := 174

/-- Whether a number with a point is zero: to the base sixty, all of its places are. -/
def isZeroFraction (t : Text) : Except Impossible Bool :=
  let places := (bare t).split ':'
  if places.length ≤ placeLimit then .ok (places.all isZeroDecimal) else .error .hugeNumber

end ShaderLink.Yaml
