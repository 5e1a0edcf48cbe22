import ShaderLink.Yaml.Directive
import ShaderLink.Yaml.Plain
import ShaderLink.Yaml.Quoted

/-!
# The tokens of a YAML text

Indentation opens and closes blocks; a colon makes a key of the last piece that could be one.  Such
a piece stands on one line, begins where a key may begin, and is not longer than 1024 characters.
Where a key must come, because the piece stands at the indentation of an open block, a missing
colon is an error.  Tags, anchors and block scalars are not part of what is read here.
-/

namespace ShaderLink.Yaml

/-- The pieces of a text.  A scalar is plain if it is not quoted. -/
inductive Token where
  | blockSequence
  | blockMapping
  | blockEnd
  | entry
  | key
  | value
  | flowSequence
  | flowSequenceEnd
  | flowMapping
  | flowMappingEnd
  | flowEntry
  | scalar (text : Text) (isPlain : Bool)
  | directive (d : Directive)
  | documentStart
  | documentEnd
  /-- There are no more tokens, because of a problem. -/
  | broken (p : Problem)
deriving DecidableEq, Repr

/-- The token is a directive. -/
def Token.isDirective : Token → Bool
  | .directive _ => true
  | _ => false

/-- A token that may turn out to be a key: how many tokens stand before it, whether a key must come
there, and where it begins. -/
structure Candidate where
  position : Nat
  isRequired : Bool
  line : Nat
  column : Nat
  index : Nat

/-- What was read so far: the tokens (the last one first) and their number, how many flow collections
are open, the indentation of the open blocks (the innermost first), whether a key may begin here, the
possible keys by the number of open flow collections, and whether the end was reached. -/
structure Scan where
  place : Place
  tokens : List Token := []
  count : Nat := 0
  flow : Nat := 0
  indents : List Nat := []
  mayKey : Bool := true
  candidates : List (Nat × Candidate) := []
  isDone : Bool := false

namespace Scan

/-- Adds a token. -/
def push (s : Scan) (t : Token) : Scan := { s with tokens := t :: s.tokens, count := s.count + 1 }

/-- Adds a token behind the first `position` ones. -/
def insert (s : Scan) (position : Nat) (t : Token) : Scan :=
  { s with tokens := s.tokens.insertIdx (s.count - position) t, count := s.count + 1 }

/-- The column lies further in than all open blocks. -/
def isInner (s : Scan) (column : Nat) : Bool := s.indents.head?.all (· < column)

/-- Opens a block with the given token at a position, if the column lies further in. -/
def openBlock (s : Scan) (column position : Nat) (t : Token) : Scan :=
  if s.isInner column then
    { s.insert position t with indents := column :: s.indents }
  else s

/-- Closes all blocks that are further in than the column. -/
def closeBlocks (s : Scan) (isOuter : Nat → Bool) : Scan :=
  if s.flow > 0 then s
  else
    let closed := s.indents.takeWhile isOuter
    { s with
      indents := s.indents.drop closed.length
      tokens := closed.map (fun _ => .blockEnd) ++ s.tokens
      count := closed.length + s.count }

/-- Gives up the possible key at the present depth, which must not be a required one. -/
def dropCandidate (s : Scan) : Except Problem Scan :=
  match s.candidates.lookup s.flow with
  | none => return s
  | some k =>
    if k.isRequired then throw .malformed
    else return { s with candidates := s.candidates.filter (·.1 != s.flow) }

/-- Gives up possible keys that began on another line or too far back. -/
def dropStale (s : Scan) : Except Problem Scan :=
  let isStale (k : Candidate) := k.line != s.place.line || s.place.index - k.index > 1024
  if s.candidates.any fun p => isStale p.2 && p.2.isRequired then throw .malformed
  else return { s with candidates := s.candidates.filter fun p => !isStale p.2 }

/-- Notes that the next token may be a key. -/
def saveCandidate (s : Scan) : Except Problem Scan := do
  if !s.mayKey then return s
  let p := s.place
  let isRequired := s.flow == 0 && s.indents.head? == some p.column
  let s ← s.dropCandidate
  let k : Candidate := ⟨s.count, isRequired, p.line, p.column, p.index⟩
  return { s with candidates := (s.flow, k) :: s.candidates }

/-- Adds a token of `n` characters. -/
def take (s : Scan) (n : Nat) (t : Token) : Except Problem Scan := do
  return { s.push t with place := ← s.place.forward n }

/-- A directive or a marker between documents closes all blocks. -/
def closeDocument (s : Scan) : Except Problem Scan := do
  let s ← (s.closeBlocks fun _ => true).dropCandidate
  return { s with mayKey := false }

/-- A marker between documents. -/
def marker (s : Scan) (t : Token) : Except Problem Scan := do
  (← s.closeDocument).take 3 t

/-- A directive, which takes the rest of its line. -/
def directive (s : Scan) : Except Problem Scan := do
  let s ← s.closeDocument
  let (d, place) ← Directive.read s.place
  return { s.push (.directive d) with place }

/-- The beginning of a flow collection. -/
def openFlow (s : Scan) (t : Token) : Except Problem Scan := do
  let s ← s.saveCandidate
  { s with flow := s.flow + 1, mayKey := true }.take 1 t

/-- The end of a flow collection, of which one must be open. -/
def closeFlow (s : Scan) (t : Token) : Except Problem Scan := do
  let isOpen := s.flow > 0
  let s ← s.dropCandidate
  let s ← { s with flow := s.flow - 1, mayKey := false }.take 1 t
  if isOpen then return s else throw .malformed

/-- A comma between the entries of a flow collection. -/
def flowEntry (s : Scan) : Except Problem Scan := do
  let s ← s.dropCandidate
  { s with mayKey := true }.take 1 .flowEntry

/-- A dash or a question mark that begins an entry of a block. -/
def blockIndicator (s : Scan) (block t : Token) (mayKey : Bool) : Except Problem Scan := do
  if s.flow = 0 && !s.mayKey then throw .malformed
  let s := if s.flow = 0 then s.openBlock s.place.column s.count block else s
  let s ← s.dropCandidate
  { s with mayKey }.take 1 t

/-- A colon: it makes a key of the last candidate, or stands for an empty key. -/
def colon (s : Scan) : Except Problem Scan := do
  match s.candidates.lookup s.flow with
  | some k =>
    let s := { s with candidates := s.candidates.filter (·.1 != s.flow) }
    let s := s.insert k.position .key
    let s := if s.flow = 0 then s.openBlock k.column k.position .blockMapping else s
    { s with mayKey := false }.take 1 .value
  | none => s.blockIndicator .blockMapping .value (s.flow == 0)

/-- A quoted scalar. -/
def quoted (s : Scan) (fuel : Nat) (quote : Char) : Except Problem Scan := do
  let s ← s.saveCandidate
  let p ← s.place.forward 1
  let (t, place) ← p.quoted quote fuel
  return { s.push (.scalar t false) with place, mayKey := false }

/-- A plain scalar. -/
def plain (s : Scan) (fuel : Nat) : Except Problem Scan := do
  let s ← s.saveCandidate
  let indent := (s.indents.head?.map (· + 1)).getD 0
  let (t, place, isBroken) ← s.place.plain (s.flow > 0) indent fuel
  return { s.push (.scalar t true) with place, mayKey := isBroken }

/-- Characters that cannot begin a plain scalar. -/
def indicators : Text := "-?:,[]\x7b\x7d#&*!|>'\"%@`".toList

/-- White space or nothing follows the next character. -/
def isSingle (s : Scan) : Except Problem Bool := do return endsPiece (← s.place.peek 1)

/-- A question mark or a colon has a meaning here; inside brackets it always has. -/
def isIndicator (s : Scan) : Except Problem Bool :=
  if s.flow > 0 then return true else s.isSingle

/-- A plain scalar begins here. -/
def beginsPlain (s : Scan) (c : Char) : Except Problem Bool := do
  if !isSpace c && !indicators.contains c then return true
  return !(← s.isSingle) && (c == '-' || (s.flow == 0 && (c == '?' || c == ':')))

/-- A marker begins here; it stands at the beginning of a line. -/
def atMarker (s : Scan) (marker : String) : Except Problem Bool :=
  if s.place.column = 0 then s.place.isMarker marker else return false

/-- Reads the token that begins with `c`; `fuel` is more than the number of characters ahead, here and
below. -/
def token (s : Scan) (fuel : Nat) (c : Char) : Except Problem Scan := do
  match c with
  | '%' => if s.place.column = 0 then return ← s.directive
  | '-' =>
    if ← s.atMarker "---" then return ← s.marker .documentStart
    if ← s.isSingle then return ← s.blockIndicator .blockSequence .entry true
  | '.' => if ← s.atMarker "..." then return ← s.marker .documentEnd
  | '[' => return ← s.openFlow .flowSequence
  | '{' => return ← s.openFlow .flowMapping
  | ']' => return ← s.closeFlow .flowSequenceEnd
  | '}' => return ← s.closeFlow .flowMappingEnd
  | ',' => return ← s.flowEntry
  | '?' => if ← s.isIndicator then return ← s.blockIndicator .blockMapping .key (s.flow == 0)
  | ':' => if ← s.isIndicator then return ← s.colon
  | '"' => return ← s.quoted fuel c
  | c => if c.toNat = 39 then return ← s.quoted fuel c
  if ← s.beginsPlain c then s.plain fuel else throw .malformed

/-- Goes on behind blanks, comments and line ends; behind a line end a key may begin, but for flow
collections. -/
def toNextToken : (fuel : Nat) → Scan → Except Problem Scan
  | 0, s => return s
  | fuel + 1, s => do
    let place ← s.place.pass (· == ' ')
    let place ← if (← place.peek) == some '#' then place.pass (!isBreak ·) else pure place
    match ← place.peek with
    | none => return { s with place }
    | some c =>
      if isBreak c then
        toNextToken fuel { s with place := ← place.forward 1, mayKey := s.mayKey || s.flow == 0 }
      else return { s with place }

/-- Reads the next token and what goes with it, or the end. -/
def advance (s : Scan) (fuel : Nat) : Except Problem Scan := do
  let s ← s.toNextToken fuel
  let s ← s.dropStale
  let s := s.closeBlocks fun indent => s.place.column < indent
  match ← s.place.peek with
  | none => return { ← (s.closeBlocks fun _ => true).dropCandidate with isDone := true }
  | some c => s.token fuel c

/-- The tokens that are certain: those in front of all that may turn out to be keys. -/
def settled (s : Scan) : List Token :=
  match (s.candidates.map (·.2.position)).min? with
  | none => s.tokens.reverse
  | some n => (s.tokens.drop (s.count - n)).reverse

/-- Reads all tokens; each takes at least one character.  If there is a problem, it comes behind those
that were certain before. -/
def run : (fuel : Nat) → Scan → List Token
  | 0, s => s.tokens.reverse
  | fuel + 1, s =>
    if s.isDone then s.tokens.reverse
    else
      match s.dropStale with
      | .error p => s.settled ++ [.broken p]
      | .ok s =>
        match s.advance fuel with
        | .error p => s.settled ++ [.broken p]
        | .ok s => run fuel s

end Scan

/-- The tokens from a place on; a mark at the beginning of a text does not count. -/
def Place.tokens (p : Place) : List Token :=
  match (if p.rest.head?.any isMark then p.forward 1 else pure p) with
  | .error problem => [.broken problem]
  | .ok place => Scan.run (p.rest.length + 3) { place }

end ShaderLink.Yaml
