import ShaderLink.Yaml.Place

/-!
# Quoted scalars in YAML texts

A quoted scalar may go on over several lines.  Between double quotes a back-slash begins a name of a
character, or takes back the line end behind it; between single quotes two of them stand for one.
-/

namespace ShaderLink.Yaml.Place

/-- Characters that stand for another one behind a back-slash. -/
def escapes : List (Char × Nat) :=
  [('0', 0), ('a', 7), ('b', 8), ('t', 9), ('\t', 9), ('n', 10), ('v', 11), ('f', 12), ('r', 13),
   ('e', 27), (' ', 32), ('"', 34), ('\\', 92), ('/', 47), ('N', 0x85), ('_', 0xA0),
   ('L', 0x2028), ('P', 0x2029)]

/-- How many hexadecimal digits follow a letter behind a back-slash. -/
def escapeWidths : List (Char × Nat) := [('x', 2), ('u', 4), ('U', 8)]

/-- The character with a number. -/
def numbered (n : Nat) : Except Problem Char :=
  if n < 0x110000 then .ok (Char.ofNat n)
  else .error (.impossible (if n < 0x80000000 then .character else .farCharacter))

/-- The line ends ahead, with blanks and tabs between them; a document must not end there. -/
def quotedBreaks : (fuel : Nat) → Place → Except Problem (Text × Place)
  | 0, p => return ([], p)
  | fuel + 1, p => do
    if ← p.isDocumentMarker then throw .malformed
    let p ← p.pass fun c => c == ' ' || c == '\t'
    match ← p.peek with
    | none => return ([], p)
    | some c =>
      if !isBreak c then return ([], p)
      let (others, p) ← quotedBreaks fuel (← p.forward 1)
      return (breakText c :: others, p)

/-- What follows a back-slash in double quotes. -/
def escaped (fuel : Nat) (p : Place) : Except Problem (Text × Place) := do
  match ← p.peek with
  | none => throw .malformed
  | some c =>
    match escapes.lookup c, escapeWidths.lookup c with
    | some n, _ => return ([Char.ofNat n], ← p.forward 1)
    | none, some width =>
      let p ← p.forward 1
      let c ← numbered (← p.hexDigits width)
      return ([c], ← p.forward width)
    | none, none =>
      if isBreak c then quotedBreaks fuel (← p.forward 1) else throw .malformed

/-- Characters of a quoted scalar that stand for themselves in both kinds of quotes. -/
def isOrdinary (c : Char) : Bool := !isSpace c && c != '"' && c.toNat != 39 && c != '\\'

/-- The rest of a quoted scalar and the place behind its closing quote. -/
def quoted (quote : Char) : (fuel : Nat) → Place → Except Problem (Text × Place)
  | 0, _ => throw .malformed
  | fuel + 1, p => do
    let isDouble := quote == '"'
    let ordinary ← p.span isOrdinary
    let p := p.skip ordinary.length
    let (piece, p) ← match ← p.peek with
      | none => throw .malformed
      | some c =>
        if c == quote then
          if isDouble then return (ordinary, ← p.forward 1)
          if (← p.peek 1) == some quote then pure ([quote], ← p.forward 2)
          else return (ordinary, ← p.forward 1)
        else if isDouble && c == '\\' then escaped fuel (← p.forward 1)
        else if c == ' ' || c == '\t' then
          let blanks ← p.span fun c => c == ' ' || c == '\t'
          let p := p.skip blanks.length
          match ← p.peek with
          | none => throw .malformed
          | some c => pure (if isBreak c then [] else blanks, p)
        else if isBreak c then
          let (others, p) ← quotedBreaks fuel (← p.forward 1)
          pure (joinBreaks c others, p)
        else pure ([c], ← p.forward 1)
    let (more, p) ← quoted quote fuel p
    return (ordinary ++ piece ++ more, p)

end ShaderLink.Yaml.Place
