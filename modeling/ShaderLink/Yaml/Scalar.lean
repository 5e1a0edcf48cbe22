import ShaderLink.Yaml.Date

/-!
# What plain scalars mean

A plain scalar is nothing, a truth value, a number, a date, or else a text; which of these is
decided by its form alone.
-/

namespace ShaderLink.Yaml

/-- The meaning of a scalar. -/
inductive Scalar where
  | null
  | bool (b : Bool)
  | number (isZero : Bool)
  | date (d : Date)
  | text (t : Text)
  /-- The key whose value is merged into the mapping around it. -/
  | merge
  /-- A form that is reserved and means nothing, unless it is a key. -/
  | reserved
  /-- A form of which there is nothing. -/
  | impossible (i : Impossible)
deriving DecidableEq, Repr

/-- Words for nothing. -/
def nullWords : List String := ["", "~", "null", "Null", "NULL"]

/-- Words for true. -/
def trueWords : List String := ["yes", "Yes", "YES", "true", "True", "TRUE", "on", "On", "ON"]

/-- Words for false. -/
def falseWords : List String := ["no", "No", "NO", "false", "False", "FALSE", "off", "Off", "OFF"]

namespace Scalar

/-- A number, if it exists. -/
def ofNumber : (isZero : Except Impossible Bool) → Scalar
  | .ok isZero => number isZero
  | .error i => impossible i

/-- A date, if it exists. -/
def ofDate (d : Date) : Scalar :=
  match d.problem? with
  | none => .date d
  | some i => .impossible i

/-- The meaning of a plain scalar. -/
def ofPlain (t : Text) : Scalar :=
  let isOneOf (ws : List String) := ws.any (·.toList == t)
  if isOneOf nullWords then .null
  else if isOneOf trueWords then .bool true
  else if isOneOf falseWords then .bool false
  else if t == "<<".toList then .merge
  else if t == "=".toList then .reserved
  else if hasForm infiniteForm t then .number false
  else if hasForm wholeForm t then ofNumber (isZeroWhole t)
  else if hasForm fractionForm t then ofNumber (isZeroFraction t)
  else
    match Date.ofText? t with
    | some d => ofDate d
    | none => .text t

/-- Why nothing can be made of a scalar, if so; what is reserved may be a key. -/
def problem? (isKey : Bool) : Scalar → Option Problem
  | merge => some .malformed
  | reserved => if isKey then none else some .malformed
  | impossible i => some (.impossible i)
  | _ => none

end Scalar

end ShaderLink.Yaml
