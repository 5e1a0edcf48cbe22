import ShaderLink.Fault
import ShaderLink.Text.Blank

/-!
# Brackets

Finding the end of a bracketed block, and cutting a list at the commas that stand outside all
brackets.
-/

namespace ShaderLink.Text

/-! ## Blocks -/

/-- How many characters it takes until `depth` open brackets are closed again. -/
def closingLength (opening closing : Char) : (depth : Nat) → Text → Option Nat
  | _, [] => none
  | depth, c :: t =>
    if c = opening then (closingLength opening closing (depth + 1) t).map (· + 1)
    else if c = closing then
      if depth ≤ 1 then some 1 else (closingLength opening closing (depth - 1) t).map (· + 1)
    else (closingLength opening closing depth t).map (· + 1)

/-- The offset behind the first block that opens at `start` or later. -/
def closingIndex (opening closing : Char) (t : Text) (start : Int) : Except Fault Nat :=
  let first := t.offset start
  match (t.drop first).findIdx? (· == opening) with
  | none => .error (Cause.noBlock [opening] start).fault
  | some i =>
    match closingLength opening closing 0 (t.drop (first + i)) with
    | none => .error Cause.unclosedBlock.fault
    | some n => .ok (first + i + n)

/-- The offset behind the first block between two brackets of any length.  A block is counted out
character by character, so brackets that are not single characters never close one. -/
def blockEnd (opening closing : Text) (t : Text) (start : Int) : Except Fault Nat :=
  match opening, closing with
  | [o], [c] => closingIndex o c t start
  | _, _ =>
    let first := t.offset start
    if first ≤ t.length ∧ holds opening (t.drop first) then .error Cause.unclosedBlock.fault
    else .error (Cause.noBlock opening start).fault

theorem blockEnd_singleton (opening closing : Char) (t : Text) (start : Int) :
    blockEnd [opening] [closing] t start = closingIndex opening closing t start := rfl

/-! ## Commas -/

/-- What a character does to the depth of nesting: braces and parentheses count alike. -/
def nesting (c : Char) : Int :=
  if c = '(' ∨ c = '{' then 1 else if c = ')' ∨ c = '}' then -1 else 0

/-- The opening brackets of a text less the closing ones. -/
def balance : Text → Int
  | [] => 0
  | c :: t => nesting c + balance t

/-- The pieces between the commas at depth zero, when the text begins at a given depth: the first
piece, and the others. -/
def commaPieces : (depth : Int) → Text → Text × List Text
  | _, [] => ([], [])
  | depth, c :: t =>
    if c = ',' ∧ depth = 0 then
      let (p, ps) := commaPieces depth t
      ([], p :: ps)
    else
      let (p, ps) := commaPieces (depth + nesting c) t
      (c :: p, ps)

/-- All pieces, but an empty last one. -/
def dropEmptyLast : Text → List Text → List Text
  | p, [] => if p.isEmpty then [] else [p]
  | p, q :: qs => p :: dropEmptyLast q qs

/-- The trimmed pieces between the commas that are outside all brackets; nothing behind a last
comma is no piece. -/
def splitCommas (t : Text) : Except Fault (List Text) :=
  if balance t = 0 then
    let (p, ps) := commaPieces 0 t
    .ok ((dropEmptyLast p ps).map trim)
  else .error (Cause.unbalancedBrackets t).fault

end ShaderLink.Text
