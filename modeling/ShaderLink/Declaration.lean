import ShaderLink.Parameter
import ShaderLink.Reference

/-!
# Declarations

The five kinds of top-level declarations: functions, global variables, structs, directives that
define a macro, and uniforms.  Each kind has its form as a pattern, and a part (`subject`) in which
other names can be mentioned.  `resolvedDefinition` writes a declaration with the names that its
references have in the linked text.
-/

namespace ShaderLink

/-- The kinds of top-level declarations. -/
inductive Kind where
  | function
  | global
  | struct
  | define
  | uniform
deriving DecidableEq, Repr

def Kind.name : Kind → Text
  | function => "function".toList
  | global => "variable".toList
  | struct => "struct".toList
  | define => "define".toList
  | uniform => "uniform".toList

/-! ## Forms -/

namespace Form

open Pattern

/-- A word followed by more letters and array brackets. -/
def sized (n : Nat) : Pattern :=
  group n identifier ++ many (one fun c => Text.isWord c || c == '[' || c == ']')

/-- A function up to the brace that opens its body: all before the brace (1), the type (2), the
name (3) and the parameters (4). -/
def functionHead : Pattern :=
  group 1 (group 2 identifier ++ gap ++ group 3 identifier ++ blanks ++ lit '(' ++
    group 4 (many (noneOf ")")) ++ lit ')') ++ blanks ++ lit '{'

/-- A global variable (1): its type (2), name (3) and value (4).  Behind it no closing brace comes
before the next opening one, so it is not inside a body. -/
def globalForm : Pattern :=
  group 1 (optional (phrase "const" ++ gap) ++ sized 2 ++ gap ++ sized 3 ++ blanks ++ lit '=' ++
    blanks ++ group 4 (few1 (noneOf ";")) ++ blanks ++ lit ';') ++
  notAhead (many (noneOf "\x7b") ++ lit '}')

/-- Blanks and tabs at the beginning of a line. -/
def indent : Pattern := lineStart ++ many (oneOf " \t")

/-- A struct (1): its name (2) and fields (3). -/
def structForm : Pattern :=
  indent ++ group 1 (phrase "struct" ++ gap ++ group 2 identifier ++ blanks ++ lit '{' ++
    group 3 (many1 (noneOf "\x7d")) ++ lit '}' ++ blanks ++ lit ';')

/-- A macro (1): its name (2), parameters (3) and text (4). -/
def defineForm : Pattern :=
  indent ++ group 1 (phrase "#define" ++ many1 (oneOf " \t") ++ group 2 identifier ++
    optional (group 3 (lit '(' ++ many (noneOf ")") ++ lit ')')) ++ many1 (oneOf " \t") ++
    group 4 (many (noneOf "\n"))) ++ lineEnd

/-- A uniform (1): its type (2) and name (3). -/
def uniformForm : Pattern :=
  group 1 (phrase "uniform" ++ gap ++
    optional (either (phrase "lowp") (either (phrase "mediump") (phrase "highp")) ++ gap) ++
    sized 2 ++ gap ++ sized 3 ++ blanks ++
    optional (lit '=' ++ blanks ++ few1 (noneOf ";") ++ blanks) ++ lit ';')

/-- The type of a function (1) and its body (2). -/
def functionParts : Pattern :=
  group 1 identifier ++ many1 (noneOf "\x7b") ++ lit '{' ++ group 2 (many anything) ++ lit '}'

/-- The body of a struct (1). -/
def structBody : Pattern :=
  textStart ++ many (noneOf "\x7b") ++ lit '{' ++ group 1 (many anything) ++ lit '}' ++ blanks ++
  lit ';' ++ textEnd

end Form

/-! ## Declarations -/

/-- A top-level declaration: where it stands, what it says and what it uses.  The serial number
tells apart declarations that agree in everything else. -/
structure Declaration where
  kind : Kind
  name : Text
  path : Text
  index : Int
  definition : Text
  parameters : List Parameter := []
  references : List Reference := []
  serial : Nat := 0
deriving DecidableEq

namespace Declaration

/-- A declaration as it is read, without blanks around it. -/
def ofSource (kind : Kind) (name path : Text) (index : Int) (definition : Text)
    (parameters : List Parameter := []) : Declaration :=
  { kind, name, path, index, parameters, definition := definition.trim }

/-- The id, shared by all overloads of a function. -/
def id (d : Declaration) : Text := idOf d.path d.name

/-- The types of the parameters, separated by commas. -/
def signature (d : Declaration) : Text := Text.join [','] (d.parameters.map (·.type))

/-- The id, and for a function the types of its parameters. -/
def key (d : Declaration) : Text :=
  match d.kind with
  | .function => d.id ++ ':' :: d.signature
  | _ => d.id

/-! ### References -/

/-- The parts of a definition in its form. -/
def parts (d : Declaration) (form : Pattern) : Except Fault Match :=
  match form.search d.definition with
  | some m => .ok m
  | none => .error ((Cause.unreadableDefinition d.kind.name d.definition).inModule d.path)

/-- The part of the definition in which other names can be mentioned. -/
def subject (d : Declaration) : Except Fault Text :=
  match d.kind with
  | .function => do
    let m ← d.parts Form.functionParts
    return Text.join [' '] [m.group 1, d.signature, m.group 2]
  | .global => do
    let m ← d.parts Form.globalForm
    return Text.join [' '] [m.group 2, m.group 4]
  | .struct => return (← d.parts Form.structBody).group 1
  | .define => return (← d.parts Form.defineForm).group 4
  | .uniform => return (← d.parts Form.uniformForm).group 2

/-- The declaration uses something of that id. -/
def uses (d : Declaration) (id : Text) : Bool := d.references.any (·.id == id)

/-- Adds a reference, unless there is one with its id. -/
def addReference (d : Declaration) (r : Reference) : Declaration :=
  if d.uses r.id then d else { d with references := d.references ++ [r] }

/-- Adds references in order; of those with one id the first counts. -/
def addReferences (d : Declaration) (rs : List Reference) : Declaration :=
  rs.foldl addReference d

/-- Removes the references with an id. -/
def removeReference (d : Declaration) (id : Text) : Declaration :=
  { d with references := d.references.filter (·.id != id) }

/-- Adds those of the candidates that the subject mentions. -/
def relate (d : Declaration) (candidates : List Reference) : Except Fault Declaration := do
  let subject ← d.subject
  return d.addReferences (candidates.filter (·.isMentionedIn subject))

/-! ### The linked text -/

/-- The new name of an id, if it has one. -/
def newName? (renames : List (Text × Text)) (id : Text) : Option Text :=
  match renames.lookup id with
  | none | some [] => none
  | some name => some name

/-- Writes the final name of a reference in the place of its local name. -/
def writeName (renames : List (Text × Text)) (t : Text) (r : Reference) : Text :=
  match newName? renames r.id with
  | some name => t.replaceWord r.localName name
  | none =>
    match r.aliasName with
    | none | some [] => t
    | some aliasName => t.replaceWord aliasName r.name

/-- The definition with the final names: first its own, then those of its references in order. -/
def resolvedDefinition (d : Declaration) (renames : List (Text × Text)) : Text :=
  let own :=
    match newName? renames d.id with
    | some name => Text.replaceFirstWords 1 d.definition d.name name
    | none => d.definition
  d.references.foldl (writeName renames) own

/-- The line before a declaration in the linked text. -/
def caption (d : Declaration) : Text := "/* ".toList ++ d.id ++ " */".toList

/-- The declaration as it stands in the linked text. -/
def block (d : Declaration) (renames : List (Text × Text)) : Text :=
  d.caption ++ '\n' :: d.resolvedDefinition renames

end Declaration

end ShaderLink
