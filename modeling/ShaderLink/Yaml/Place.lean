import ShaderLink.Text.Basic
import ShaderLink.Yaml.Problem

/-!
# Places in YAML texts

A text is read from place to place.  It may break off, if what comes next cannot be read; this does
no harm as long as nothing asks for the characters behind.  So each function here that looks ahead
looks no further than it has to.
-/

namespace ShaderLink.Yaml

/-! ## Characters -/

/-- Line ends, of which only the last two are kept as they are. -/
def isBreak (c : Char) : Bool :=
  c == '\n' || c == '\r' || c.toNat == 0x85 || c.toNat == 0x2028 || c.toNat == 0x2029

/-- The mark that may stand at the beginning of a text. -/
def isMark (c : Char) : Bool := c.toNat == 0xFEFF

/-- Blank, tab or line end. -/
def isSpace (c : Char) : Bool := c == ' ' || c == '\t' || isBreak c

/-- The characters that a text may hold. -/
def isAllowed (c : Char) : Bool :=
  let n := c.toNat
  c == '\t' || c == '\n' || c == '\r' || (0x20 ≤ n && n ≤ 0x7E) || n == 0x85 ||
    (0xA0 ≤ n && n ≤ 0xFFFD) || 0x10000 ≤ n

/-- Nothing more, or white space. -/
def endsPiece (c : Option Char) : Bool := c.all isSpace

/-- Nothing more, or a line end. -/
def endsLine (c : Option Char) : Bool := c.all isBreak

/-- What a line end contributes to a scalar. -/
def breakText (c : Char) : Char :=
  if c.toNat == 0x2028 || c.toNat == 0x2029 then c else '\n'

/-- What one line end and those that follow stand for: one alone is a blank. -/
def joinBreaks (first : Char) (others : Text) : Text :=
  if breakText first ≠ '\n' then breakText first :: others
  else if others.isEmpty then [' '] else others

/-! ## Places -/

/-- What is still to be read, where it begins, and why it breaks off, unless the text ends there. -/
structure Place where
  rest : Text
  cut : Option Problem := none
  line : Nat := 0
  column : Nat := 0
  index : Nat := 0

namespace Place

/-- The beginning of a text in pieces, which may break off behind them.  The first two pieces are
read at once; a piece can only be read if all its characters are allowed. -/
def ofPieces (pieces : List Text) (isCut : Bool) : Place :=
  if isCut && pieces.length < 2 then { rest := [], cut := some .notText }
  else
    let loads := (pieces.take 2).flatten :: pieces.drop 2
    let readable := loads.takeWhile (·.all isAllowed)
    { rest := readable.flatten
      cut := if readable.length < loads.length then some .malformed
        else if isCut then some .notText else none }

/-- The character that lies `n` characters ahead. -/
def peek (p : Place) (n : Nat := 0) : Except Problem (Option Char) :=
  match p.rest[n]?, p.cut with
  | some c, _ => .ok (some c)
  | none, none => .ok none
  | none, some problem => .error problem

/-- The characters of a class that lie directly ahead. -/
def span (p : Place) (test : Char → Bool) : Except Problem Text := do
  let t := p.rest.takeWhile test
  let _ ← p.peek t.length
  return t

/-- The place behind the next character. -/
def next (p : Place) : Place :=
  match p.rest with
  | [] => p
  | c :: t =>
    if isBreak c then { p with rest := t, line := p.line + 1, column := 0, index := p.index + 1 }
    else
      { p with
        rest := t
        column := if isMark c then p.column else p.column + 1
        index := p.index + 1 }

/-- The place `n` characters on. -/
def skip : (n : Nat) → Place → Place
  | 0, p => p
  | n + 1, p => skip n p.next

/-- Goes `n` characters on, where the next one must be there to read. -/
def forward (p : Place) (n : Nat) : Except Problem Place := do
  let _ ← p.peek n
  return p.skip n

/-- Goes behind all leading characters of a class. -/
def pass (p : Place) (test : Char → Bool) : Except Problem Place := do
  return p.skip (← p.span test).length

/-- The given characters lie ahead, with white space or nothing behind. -/
def isMarker (p : Place) (s : String) : Except Problem Bool := do
  let _ ← p.peek (s.length - 1)
  if s.toList.isPrefixOf p.rest then return endsPiece (← p.peek s.length) else return false

/-- Three dashes or three dots, which mark a document at the beginning of a line. -/
def isDocumentMarker (p : Place) : Except Problem Bool := do
  return (← p.isMarker "---") || (← p.isMarker "...")

/-- The number that the next `n` characters stand for, which must be hexadecimal digits. -/
def hexDigits (p : Place) (n : Nat) : Except Problem Nat := do
  let value (c : Char) : Option Nat :=
    if c.isDigit then some (c.toNat - 48)
    else if 'a' ≤ c && c ≤ 'f' then some (c.toNat - 87)
    else if 'A' ≤ c && c ≤ 'F' then some (c.toNat - 55)
    else none
  let t := (p.rest.take n).takeWhile fun c => (value c).isSome
  if t.length < n then
    let _ ← p.peek t.length
    throw .malformed
  return (t.filterMap value).foldl (fun m d => 16 * m + d) 0

end Place

end ShaderLink.Yaml
