import ShaderLink.Yaml.Place

/-!
# Plain scalars in YAML texts

A plain scalar goes on over several lines as long as they are further in than the block around it.
It ends at a comment, at a colon that makes a key of it, and between documents; inside brackets also
at the characters that have a meaning there.
-/

namespace ShaderLink.Yaml.Place

/-- The number of characters that a piece of a plain scalar takes on its line. -/
def plainLength (inFlow : Bool) : Text → Nat
  | [] => 0
  | c :: t =>
    let endsKey :=
      c == ':' && (endsPiece t.head? || (inFlow && t.head?.any ",[]\x7b\x7d".toList.contains))
    if isSpace c || endsKey || (inFlow && ",?[]\x7b\x7d".toList.contains c) then 0
    else plainLength inFlow t + 1

/-- A piece of a plain scalar on one line.  What ends it must be there to read, and what follows a
colon as well. -/
def plainPiece (p : Place) (inFlow : Bool) : Except Problem Text := do
  let n := plainLength inFlow p.rest
  if (← p.peek n) == some ':' then
    let _ ← p.peek (n + 1)
  return p.rest.take n

/-- The line ends that follow one, and the place behind them and the blanks between them; no line
ends if a document ends there. -/
def foldBreaks : (fuel : Nat) → Place → Except Problem (Option Text × Place)
  | 0, p => return (some [], p)
  | fuel + 1, p => do
    let p ← p.pass (· == ' ')
    match ← p.peek with
    | none => return (some [], p)
    | some c =>
      if !isBreak c then return (some [], p)
      let p ← p.forward 1
      if ← p.isDocumentMarker then return (none, p)
      let (others, p) ← foldBreaks fuel p
      return (others.map (breakText c :: ·), p)

/-- What lies between two pieces of a plain scalar, the place behind it, and whether there are line
ends in it.  If nothing lies between them, or a document ends, the scalar does not go on. -/
def plainGap (fuel : Nat) (p : Place) : Except Problem (Text × Place × Bool) := do
  let blanks ← p.span (· == ' ')
  let p := p.skip blanks.length
  match ← p.peek with
  | none => return (blanks, p, false)
  | some c =>
    if !isBreak c then return (blanks, p, false)
    let p ← p.forward 1
    if ← p.isDocumentMarker then return ([], p, true)
    let (others, p) ← foldBreaks fuel p
    return ((others.map (joinBreaks c)).getD [], p, true)

/-- A plain scalar in a block at a given indentation: its text, the place behind it and whether a
line end comes last. -/
def plain (inFlow : Bool) (indent : Nat) : (fuel : Nat) → Place → Except Problem (Text × Place × Bool)
  | 0, p => return ([], p, false)
  | fuel + 1, p => do
    if (← p.peek) == some '#' then return ([], p, false)
    let piece ← p.plainPiece inFlow
    if piece.isEmpty then return ([], p, false)
    let (gap, p, isBroken) ← plainGap fuel (← p.forward piece.length)
    if gap.isEmpty || (← p.peek) == some '#' || (!inFlow && p.column < indent) then
      return (piece, p, isBroken)
    let (more, q, isEndBroken) ← plain inFlow indent fuel p
    if more.isEmpty then return (piece, q, isBroken)
    else return (piece ++ gap ++ more, q, isEndBroken)

end ShaderLink.Yaml.Place
