import ShaderLink.Yaml.Scalar
import ShaderLink.Yaml.Token

/-!
# The values of YAML texts

A text holds one value: a scalar, a list or a mapping, the last two in blocks or in brackets.
Reading goes through the tokens once; each function takes the tokens from the place where its part
begins and gives back those behind it.  Only when the whole text is read, its values are looked at
level by level for problems.
-/

namespace ShaderLink.Yaml

/-- A value. -/
inductive Value where
  | scalar (s : Scalar)
  | list (vs : List Value)
  | mapping (ps : List (Value × Value))
  /-- A mapping that merges what cannot be merged. -/
  | unmergeable

namespace Value

/-- Nothing at all. -/
def null : Value := .scalar .null

end Value

/-! ## Mappings -/

/-- The entries that a merged value brings in. -/
def mergedEntries : Value → Option (List (Value × Value))
  | .mapping ps => some ps
  | .list vs =>
    let entries (v : Value) : Option (List (Value × Value)) := match v with
      | .mapping ps => some ps
      | _ => none
    (vs.mapM entries).map fun lists => lists.reverse.flatten
  | _ => none

/-- The entry brings in other entries. -/
def isMerge (p : Value × Value) : Bool :=
  match p.1 with
  | .scalar .merge => true
  | _ => false

/-- A mapping of entries; merged entries come before the others. -/
def mappingOf (ps : List (Value × Value)) : Value :=
  match (ps.filter isMerge).mapM fun p => mergedEntries p.2 with
  | some merged => .mapping (merged.flatten ++ ps.filter fun p => !isMerge p)
  | none => .unmergeable

/-- The value of a scalar. -/
def scalarOf (t : Text) (isPlain : Bool) : Value :=
  .scalar (if isPlain then Scalar.ofPlain t else .text t)

/-! ## Reading values -/

/-- Fails because of the next token. -/
def unexpected {α : Type} (ts : List Token) : Except Problem α :=
  match ts with
  | .broken p :: _ => throw p
  | _ => throw .malformed

/-- The next token is none of the given ones. -/
def notNext (ends : List Token) (ts : List Token) : Bool :=
  match ts with
  | [] => false
  | t :: _ => !ends.contains t

/-- Behind the end of a block. -/
def blockRest : List Token → Except Problem (List Token)
  | .blockEnd :: ts => return ts
  | ts => unexpected ts

mutual

/-- A value.  Inside a block it may be a block itself, and where a list may go without indentation of
its own, entries may follow at once. -/
def value (fuel : Nat) (inBlock dashes : Bool) (ts : List Token) :
    Except Problem (Value × List Token) :=
  match fuel with
  | 0 => unexpected ts
  | fuel + 1 =>
    match ts with
    | .scalar t isPlain :: ts => return (scalarOf t isPlain, ts)
    | .flowSequence :: ts => do
      let (vs, ts) ← flowList fuel true ts
      return (.list vs, ts)
    | .flowMapping :: ts => do
      let (ps, ts) ← flowEntries fuel true ts
      return (mappingOf ps, ts)
    | .blockSequence :: ts => do
      if !inBlock then throw .malformed
      let (vs, ts) ← blockList fuel ts
      return (.list vs, ← blockRest ts)
    | .blockMapping :: ts => do
      if !inBlock then throw .malformed
      let (ps, ts) ← blockEntries fuel ts
      return (mappingOf ps, ← blockRest ts)
    | .entry :: _ => do
      if !dashes then throw .malformed
      let (vs, ts) ← blockList fuel ts
      return (.list vs, ts)
    | ts => unexpected ts

/-- A value, or nothing if the next token shows that there is none. -/
def valueUnless (fuel : Nat) (inBlock dashes : Bool) (ends : List Token) (ts : List Token) :
    Except Problem (Value × List Token) :=
  match fuel with
  | 0 => unexpected ts
  | fuel + 1 => if notNext ends ts then value fuel inBlock dashes ts else return (.null, ts)

/-- The entries of a list in a block. -/
def blockList (fuel : Nat) (ts : List Token) : Except Problem (List Value × List Token) :=
  match fuel with
  | 0 => unexpected ts
  | fuel + 1 =>
    match ts with
    | .entry :: ts => do
      let ends : List Token := [.entry, .key, .value, .blockEnd]
      let (v, ts) ← valueUnless fuel true false ends ts
      let (vs, ts) ← blockList fuel ts
      return (v :: vs, ts)
    | ts => return ([], ts)

/-- The entries of a mapping in a block. -/
def blockEntries (fuel : Nat) (ts : List Token) :
    Except Problem (List (Value × Value) × List Token) :=
  match fuel with
  | 0 => unexpected ts
  | fuel + 1 =>
    match ts with
    | .key :: ts => do
      let (k, ts) ← valueUnless fuel true true [.key, .value, .blockEnd] ts
      let (v, ts) ← blockValue fuel ts
      let (ps, ts) ← blockEntries fuel ts
      return ((k, v) :: ps, ts)
    | ts => return ([], ts)

/-- The value of an entry in a block, if there is a colon. -/
def blockValue (fuel : Nat) (ts : List Token) : Except Problem (Value × List Token) :=
  match fuel with
  | 0 => unexpected ts
  | fuel + 1 =>
    match ts with
    | .value :: ts => valueUnless fuel true true [.key, .value, .blockEnd] ts
    | ts => return (.null, ts)

/-- The entries of a list in brackets, and the bracket. -/
def flowList (fuel : Nat) (isFirst : Bool) (ts : List Token) :
    Except Problem (List Value × List Token) :=
  match fuel with
  | 0 => unexpected ts
  | fuel + 1 =>
    match ts, isFirst with
    | .flowSequenceEnd :: ts, _ => return ([], ts)
    | .flowEntry :: ts, false => flowItem fuel ts
    | ts, true => flowItem fuel ts
    | ts, false => unexpected ts

/-- An entry of a list in brackets, if there is one, and those behind it. -/
def flowItem (fuel : Nat) (ts : List Token) : Except Problem (List Value × List Token) :=
  match fuel with
  | 0 => unexpected ts
  | fuel + 1 =>
    match ts with
    | .flowSequenceEnd :: ts => return ([], ts)
    | .key :: ts => do
      let ends : List Token := [.flowEntry, .flowSequenceEnd]
      let (k, ts) ← valueUnless fuel false false (.value :: ends) ts
      let (v, ts) ← flowValue fuel ends ts
      let (vs, ts) ← flowList fuel false ts
      return (mappingOf [(k, v)] :: vs, ts)
    | ts => do
      let (v, ts) ← value fuel false false ts
      let (vs, ts) ← flowList fuel false ts
      return (v :: vs, ts)

/-- The entries of a mapping in braces, and the brace. -/
def flowEntries (fuel : Nat) (isFirst : Bool) (ts : List Token) :
    Except Problem (List (Value × Value) × List Token) :=
  match fuel with
  | 0 => unexpected ts
  | fuel + 1 =>
    match ts, isFirst with
    | .flowMappingEnd :: ts, _ => return ([], ts)
    | .flowEntry :: ts, false => flowPair fuel ts
    | ts, true => flowPair fuel ts
    | ts, false => unexpected ts

/-- An entry of a mapping in braces, if there is one, and those behind it. -/
def flowPair (fuel : Nat) (ts : List Token) :
    Except Problem (List (Value × Value) × List Token) :=
  match fuel with
  | 0 => unexpected ts
  | fuel + 1 =>
    match ts with
    | .flowMappingEnd :: ts => return ([], ts)
    | .key :: ts => do
      let ends : List Token := [.flowEntry, .flowMappingEnd]
      let (k, ts) ← valueUnless fuel false false (.value :: ends) ts
      let (v, ts) ← flowValue fuel ends ts
      let (ps, ts) ← flowEntries fuel false ts
      return ((k, v) :: ps, ts)
    | ts => do
      let (k, ts) ← value fuel false false ts
      let (ps, ts) ← flowEntries fuel false ts
      return ((k, .null) :: ps, ts)

/-- The value of an entry in brackets or braces, if there is a colon. -/
def flowValue (fuel : Nat) (ends : List Token) (ts : List Token) :
    Except Problem (Value × List Token) :=
  match fuel with
  | 0 => unexpected ts
  | fuel + 1 =>
    match ts with
    | .value :: ts => valueUnless fuel false false ends ts
    | ts => return (.null, ts)

end

/-! ## Problems -/

namespace Value

/-- Why a value cannot stand for itself, or as a key, if so: a key must be a scalar. -/
def scalarProblem? (isKey : Bool) : Value → Option Problem
  | scalar s => s.problem? isKey
  | _ => if isKey then some .malformed else none

/-- The first problem of the scalars that lie directly in a list or a mapping. -/
def innerProblem? : Value → Option Problem
  | scalar _ => none
  | list vs => vs.findSome? (scalarProblem? false)
  | mapping ps => ps.findSome? fun p => (scalarProblem? true p.1).or (scalarProblem? false p.2)
  | unmergeable => some .malformed

/-- The values that lie directly in a list or a mapping. -/
def parts : Value → List Value
  | scalar _ | unmergeable => []
  | list vs => vs
  | mapping ps => ps.map Prod.snd

/-- The first problem in values of one level, or else of the levels below. -/
def problemBelow? : (fuel : Nat) → List Value → Option Problem
  | 0, _ => none
  | fuel + 1, vs => (vs.findSome? innerProblem?).or (problemBelow? fuel (vs.flatMap parts))

end Value

/-! ## Documents -/

/-- Behind the directives, and whether there are any; no two of them may clash. -/
def passDirectives : (before : List Directive) → List Token → Except Problem (List Token × Bool)
  | before, .directive d :: ts =>
    if before.any d.clashes || isForeign d then throw .malformed
    else passDirectives (d :: before) ts
  | before, ts => return (ts, !before.isEmpty)
where
  /-- The directive asks for a version of the language that is not read here. -/
  isForeign : Directive → Bool
    | .version major => major != 1
    | _ => false

/-- The document has nothing but its marker. -/
def hasNoBody (ts : List Token) : Bool :=
  ts.head?.all fun t => t.isDirective || t == .documentStart || t == .documentEnd

/-- Nothing but marks of its end may follow a document. -/
def passEnd : List Token → Except Problem Unit
  | [] => return
  | .documentEnd :: ts => passEnd ts
  | ts => do unexpected (← passDirectives [] ts).1

/-- The value of the only document in a text, nothing if there is none. -/
def document (ts : List Token) : Except Problem Value := do
  let fuel := 3 * ts.length + 3
  let (body, hasDirectives) ← passDirectives [] ts
  let (v, rest) ← match body, hasDirectives with
    | .documentStart :: body, _ =>
      if hasNoBody body then pure (Value.null, body)
      else value fuel true false body
    | body, true => unexpected body
    | [], false => pure (Value.null, [])
    | body, false => value fuel true false body
  passEnd rest
  return v

/-- The value of a text that begins at a place. -/
def read (p : Place) : Except Problem Value := do
  let ts := p.tokens
  let v ← document ts
  match (v.scalarProblem? false).or (Value.problemBelow? ts.length [v]) with
  | none => return v
  | some problem => throw problem

end ShaderLink.Yaml
