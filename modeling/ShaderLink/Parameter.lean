import ShaderLink.Pattern.Search
import ShaderLink.Text.Brackets

/-!
# Parameters

The parameters of a function and the fields of a struct: a name and the word before it, which is
the type; qualifiers in front and an array size behind are allowed.
-/

namespace ShaderLink

/-- A parameter of a function or a field of a struct. -/
structure Parameter where
  name : Text
  type : Text
  index : Nat
deriving DecidableEq

namespace Parameter

open Pattern

/-- The last two words of a declaration: the type (1) and the name (2), with an array size behind. -/
def declarator : Pattern :=
  group 1 identifier ++ gap ++ group 2 identifier ++ blanks ++
  optional (lit '[' ++ many (noneOf "]") ++ lit ']') ++ blanks ++ textEnd

/-- Reads one declaration. -/
def ofText (index : Nat) (t : Text) : Except Fault Parameter :=
  match declarator.search t.trim with
  | none => .error (Cause.invalidParameter t).fault
  | some m => .ok { name := m.group 2, type := m.group 1, index := index }

/-- Reads declarations and numbers them from `index` on. -/
def ofTextsFrom : (index : Nat) → List Text → Except Fault (List Parameter)
  | _, [] => .ok []
  | index, t :: ts => do
    let p ← ofText index t
    let ps ← ofTextsFrom (index + 1) ts
    return p :: ps

/-- Reads one declaration per text. -/
def ofTexts (ts : List Text) : Except Fault (List Parameter) := ofTextsFrom 0 ts

/-- Reads the text between the parentheses of a function. -/
def ofList (t : Text) : Except Fault (List Parameter) := do
  let t := t.trim
  if t.isEmpty || t == "void".toList then return []
  ofTexts (← Text.splitCommas t)

/-- The declarations of fields that share a type, one by one. -/
def separate (field : Text) : Except Fault (List Text) := do
  match ← Text.splitCommas field with
  | [] => return []
  | [only] => return [only]
  | first :: others =>
    match first.words.reverse with
    | _ :: type :: _ => return first :: others.map fun name => type ++ ' ' :: name
    | _ => throw Cause.missingFieldType.fault

/-- The declarations in the body of a struct, with no type shared. -/
def fieldTexts (body : Text) : Except Fault (List Text) := do
  let fields := ((body.split ';').map Text.trim).filter (!·.isEmpty)
  return (← fields.mapM separate).flatten

/-- Reads the body of a struct. -/
def ofFields (body : Text) : Except Fault (List Parameter) := do
  ofTexts (← fieldTexts body)

end Parameter

end ShaderLink
