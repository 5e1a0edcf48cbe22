import ShaderLink.Yaml.Number
import ShaderLink.Yaml.Place

/-!
# Directives of YAML texts

A line that begins with a percent sign says something about the document that follows: the version
of the language, or a handle for tags.  Other directives are read over.
-/

namespace ShaderLink.Yaml

/-- What a directive says. -/
inductive Directive where
  /-- The version of the language, of which only the number in front of the point counts. -/
  | version (major : Nat)
  | tag (handle : Text)
  | other
deriving DecidableEq, Repr

namespace Directive

/-- Both directives say something about the same thing, of which only one may. -/
def clashes : Directive → Directive → Bool
  | version _, version _ => true
  | tag h, tag h' => h == h'
  | _, _ => false

/-- Characters of names and handles. -/
def isNameChar (c : Char) : Bool := c.isAlphanum || c == '-' || c == '_'

/-- Characters of addresses that stand for themselves. -/
def isAddressChar (c : Char) : Bool := c.isAlphanum || "-;/?:@&=+$,_.!~*'()[]".toList.contains c

/-- The end of a word: a blank, a line end, or nothing more. -/
def endsWord (c : Option Char) : Bool := c == some ' ' || endsLine c

/-- Fails unless a condition holds. -/
def require (b : Bool) : Except Problem Unit := if b then .ok () else .error .malformed

/-! ## Versions -/

/-- A number, and the place behind it. -/
def number (p : Place) : Except Problem (Nat × Place) := do
  let t ← p.span Char.isDigit
  require !t.isEmpty
  return (← (decimal? t).mapError .impossible, p.skip t.length)

/-- Two numbers with a point between them. -/
def ofVersion (p : Place) : Except Problem (Directive × Place) := do
  let (major, p) ← number (← p.pass (· == ' '))
  require ((← p.peek) == some '.')
  let (_, p) ← number (← p.forward 1)
  require (endsWord (← p.peek))
  return (version major, p)

/-! ## Handles for tags -/

/-- A handle: an exclamation mark, or a name between two of them. -/
def handle (p : Place) : Except Problem (Text × Place) := do
  require ((← p.peek) == some '!')
  let q ← p.forward 1
  let name ← q.span isNameChar
  let q := q.skip name.length
  if name.isEmpty && (← q.peek) == some ' ' then return (['!'], q)
  require ((← q.peek) == some '!')
  return ('!' :: name ++ ['!'], ← q.forward 1)

/-- Bytes that are written as two digits behind a percent sign each. -/
def bytes : (fuel : Nat) → Place → Except Problem (List UInt8 × Place)
  | 0, p => return ([], p)
  | fuel + 1, p => do
    if (← p.peek) != some '%' then return ([], p)
    let p ← p.forward 1
    let b ← p.hexDigits 2
    let (bs, p) ← bytes fuel (← p.forward 2)
    return (UInt8.ofNat b :: bs, p)

/-- The place behind an address, in which the bytes of other characters may be written. -/
def passAddress : (fuel : Nat) → Place → Except Problem Place
  | 0, p => return p
  | fuel + 1, p => do
    let p ← p.pass isAddressChar
    if (← p.peek) != some '%' then return p
    let (bs, p) ← bytes p.rest.length p
    require (ByteArray.validateUTF8 ⟨bs.toArray⟩)
    passAddress fuel p

/-- A handle, and an address behind blanks. -/
def ofTag (p : Place) : Except Problem (Directive × Place) := do
  let (h, p) ← handle (← p.pass (· == ' '))
  require ((← p.peek) == some ' ')
  let p ← p.pass (· == ' ')
  let q ← passAddress p.rest.length p
  require (p.index < q.index)
  require (endsWord (← q.peek))
  return (tag h, q)

/-! ## Lines -/

/-- The place behind the rest of a line, which may hold blanks and a comment. -/
def passLine (p : Place) : Except Problem Place := do
  let p ← p.pass (· == ' ')
  let p ← if (← p.peek) == some '#' then p.pass (!isBreak ·) else pure p
  match ← p.peek with
  | none => return p
  | some c =>
    require (isBreak c)
    p.forward 1

/-- Reads a directive, which begins with a percent sign, and its line. -/
def read (p : Place) : Except Problem (Directive × Place) := do
  let p ← p.forward 1
  let name ← p.span isNameChar
  require !name.isEmpty
  let p := p.skip name.length
  require (endsWord (← p.peek))
  let (d, p) ←
    if name == "YAML".toList then ofVersion p
    else if name == "TAG".toList then ofTag p
    else pure (other, ← p.pass (!isBreak ·))
  return (d, ← passLine p)

end Directive

end ShaderLink.Yaml
