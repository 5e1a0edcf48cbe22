import ShaderLink.Plugin.Basic
import ShaderLink.Table
import ShaderLink.Text.Brackets
import ShaderLink.Text.Order

/-!
# Named arguments

A call may name its arguments: `light({ color: c, position })` becomes a call with positional
arguments in the order of the parameters.  Until the callee is known, the names are wrapped in
underscores, so that they are not taken for uses of declarations.
-/

namespace ShaderLink.NamedArguments

open Pattern

/-- A call with named arguments: the callee (1) and the arguments (2). -/
def callForm : Pattern :=
  group 1 identifier ++ blanks ++ lit '(' ++ blanks ++ lit '{' ++ blanks ++
  group 2 (few (noneOf "\x7d")) ++ blanks ++ lit '}' ++ blanks ++ lit ')'

/-- One argument: its name (1), if it has one, and its value (2). -/
def argumentForm : Pattern :=
  textStart ++ optional (group 1 identifier ++ blanks ++ lit ':') ++ blanks ++
  group 2 (many1 anything) ++ textEnd

/-- A name that no declaration has by accident. -/
def wrap (name : Text) : Text := '_' :: name ++ ['_']

/-- The name inside one pair of underscores. -/
def unwrap (name : Text) : Text :=
  if name.length > 2 && name.head? == some '_' && name.getLast? == some '_' then
    name.tail.dropLast
  else name

/-- The name and the value of one argument; a value alone is its own name. -/
def argument (all t : Text) : Except Fault (Text × Text) :=
  match argumentForm.search t with
  | none => .error (Cause.unreadableArguments all).fault
  | some m => .ok ((m.group? 1).getD (m.group 2), (m.group 2).trim)

/-- The values of a list of arguments by name, where `rename` is applied to each name. -/
def values (rename : Text → Text) (list : Text) : Except Fault (Table Text Text) := do
  let parts ← Text.splitCommas list.trim
  let arguments ← (parts.filter (!·.isEmpty)).mapM (argument list)
  return Table.ofList (arguments.map fun a => (rename a.1, a.2))

/-! ## Before reading -/

/-- A call with its names wrapped. -/
def wrapCall (m : Match) : Except Fault Text :=
  if (m.group 2).trim.isEmpty then .ok m.text
  else do
    let arguments ← values wrap (m.group 2)
    let shown := arguments.map fun a => a.1 ++ ": ".toList ++ a.2
    return m.group 1 ++ "(\x7b ".toList ++ Text.join ", ".toList shown ++ ", \x7d)".toList

/-- Wraps the names in all calls. -/
def preprocess (code : Text) : Except Fault Text := callForm.substituteM wrapCall code

/-! ## After reading -/

/-- Functions and structs can be called. -/
def isCallable (d : Declaration) : Bool := d.kind == .function || d.kind == .struct

/-- The declarations that a call of the name may mean. -/
def callables (s : Surroundings) (callee : Text) : List Declaration :=
  ((s.byName callee).map (·.declaration)).filter isCallable

/-- The callee takes parameters of these names, and no others. -/
def takes (names : List Text) (d : Declaration) : Bool :=
  Text.sorted (d.parameters.map (·.name)) == names

/-- A call with positional arguments, in the order of the parameters of the first callable that
takes the names. -/
def positional (s : Surroundings) (m : Match) : Except Fault Text :=
  let callee := m.group 1
  match callables s callee with
  | [] => .error ((Cause.noCallable callee).inModule s.path)
  | found => do
    let arguments ← values unwrap (m.group 2)
    let names := Text.sorted arguments.keys
    match found.find? (takes names) with
    | none => throw ((Cause.noOverload callee names).inModule s.path)
    | some d =>
      let inOrder := d.parameters.map fun p => (arguments.get? p.name).getD []
      return callee ++ '(' :: Text.join ", ".toList inOrder ++ [')']

/-- Makes the calls in the definitions positional, up to the first that fails. -/
def makePositional (s : Surroundings) :
    List Declaration → List Declaration × Except Fault (Option (List Declaration))
  | [] => ([], .ok none)
  | d :: ds =>
    match callForm.substituteM (positional s) d.definition with
    | .error fault => (d :: ds, .error fault)
    | .ok definition =>
      let (ds, result) := makePositional s ds
      ({ d with definition } :: ds, result)

/-- The plugin for named arguments. -/
def plugin (serial : Nat) : Plugin where
  id := "named-arguments".toList
  serial := serial
  preprocess _ code := (preprocess code, [])
  transform _ s ds :=
    let (edited, replacement) := makePositional s ds
    { edited, replacement }

end ShaderLink.NamedArguments
