import ShaderLink.Pattern.Basic

/-!
# Searching and substituting

A search tries a pattern at one place after the other and returns the first match.  `pieces` cuts
a whole text into matches and the characters between them; erasing, substituting and splitting
read that list.  `sequence` looks for matches one after the other, each in the text behind the last
one as if nothing stood before it.
-/

namespace ShaderLink

/-- A match: where it begins, the text matched, and the texts remembered by number (from 1). -/
structure Match where
  start : Nat
  text : Text
  groups : List (Option Text)
deriving Inhabited, DecidableEq

namespace Match

/-- The offset behind the match. -/
def stop (m : Match) : Nat := m.start + m.text.length

/-- The text remembered under a number, empty if there is none. -/
def group (m : Match) (n : Nat) : Text := ((m.groups[n - 1]?).join).getD []

/-- The text remembered under a number, if that part took part in the match. -/
def group? (m : Match) (n : Nat) : Option Text := (m.groups[n - 1]?).join

/-- The same match in a text that has `n` more characters in front. -/
def shift (n : Nat) (m : Match) : Match := { m with start := m.start + n }

end Match

/-- A piece of a text that was searched throughout: a match, or a character outside of them. -/
inductive Piece where
  | kept (c : Char)
  | found (m : Match)
deriving DecidableEq

namespace Pattern

/-- The match that begins right here, `start` characters into the text. -/
def here (p : Pattern) (before : Option Char) (start left : Nat) (t : Text) : Option Match :=
  let k : Cursor := ⟨before, t, left, []⟩
  (p.run k some).map fun k' =>
    ⟨start, (k.upTo k').text, (List.range p.groupCount).map fun n => k'.group? (n + 1)⟩

/-! ## Searching -/

/-- The first match in the rest of a text. -/
def searchFrom (p : Pattern) : Option Char → Nat → Nat → Text → Option Match
  | before, start, _, [] => p.here before start 0 []
  | before, start, left, c :: t =>
    match p.here before start left (c :: t) with
    | some m => some m
    | none => p.searchFrom (some c) (start + 1) (left - 1) t

/-- The first match in a text. -/
def search (p : Pattern) (t : Text) : Option Match := p.searchFrom none 0 t.length t

/-- Matches found one after the other, each in the text behind the previous one taken as a text of
its own; offsets count from the beginning of the whole. -/
def sequenceFrom (p : Pattern) : (fuel offset : Nat) → Text → List Match
  | 0, _, _ => []
  | fuel + 1, offset, t =>
    match p.search t with
    | none => []
    | some m =>
      let used := max m.stop 1
      m.shift offset :: p.sequenceFrom fuel (offset + used) (t.drop used)

/-- Matches found one after the other in separate searches. -/
def sequence (p : Pattern) (t : Text) : List Match := p.sequenceFrom (t.length + 1) 0 t

/-! ## Cutting a text into pieces -/

/-- The pieces of the rest of a text, after `skip` characters that belong to the last match.  An
empty match is followed by the next character. -/
def piecesFrom (p : Pattern) : Option Char → (skip start left : Nat) → Text → List Piece
  | before, _, start, _, [] => ((p.here before start 0 []).map Piece.found).toList
  | before, 0, start, left, c :: t =>
    match p.here before start left (c :: t) with
    | none => .kept c :: p.piecesFrom (some c) 0 (start + 1) (left - 1) t
    | some m =>
      match m.text.length with
      | 0 => .found m :: .kept c :: p.piecesFrom (some c) 0 (start + 1) (left - 1) t
      | n + 1 => .found m :: p.piecesFrom (some c) n (start + 1) (left - 1) t
  | _, skip + 1, start, left, c :: t => p.piecesFrom (some c) skip (start + 1) (left - 1) t

/-- The matches of a text, left to right and without overlap, and the characters between them. -/
def pieces (p : Pattern) (t : Text) : List Piece := p.piecesFrom none 0 0 t.length t

/-- All matches of one pass over the text. -/
def findAll (p : Pattern) (t : Text) : List Match :=
  (p.pieces t).filterMap fun
    | .kept _ => none
    | .found m => some m

/-- Writes a text in the place of every match. -/
def substitute (p : Pattern) (new : Match → Text) (t : Text) : Text :=
  (p.pieces t).flatMap fun
    | .kept c => [c]
    | .found m => new m

/-- Writes a text in the place of the first `count` matches. -/
def substituteFirst (new : Match → Text) : Nat → List Piece → Text
  | _, [] => []
  | count, .kept c :: ps => c :: substituteFirst new count ps
  | 0, .found m :: ps => m.text ++ substituteFirst new 0 ps
  | count + 1, .found m :: ps => new m ++ substituteFirst new count ps

/-- Writes a text in the place of every match, where finding that text may fail. -/
def substituteM {m : Type → Type} [Monad m] (p : Pattern) (new : Match → m Text) (t : Text) :
    m Text := do
  let parts ← (p.pieces t).mapM fun
    | .kept c => pure [c]
    | .found found => new found
  return parts.flatten

/-- Deletes every match. -/
def erase (p : Pattern) (t : Text) : Text := p.substitute (fun _ => []) t

/-- Cuts at every match. -/
def cut : List Piece → List Text
  | [] => [[]]
  | .found _ :: ps => [] :: cut ps
  | .kept c :: ps =>
    match cut ps with
    | [] => [[c]]
    | t :: ts => (c :: t) :: ts

/-- The texts between the matches. -/
def splitOn (p : Pattern) (t : Text) : List Text := cut (p.pieces t)

end Pattern

end ShaderLink
