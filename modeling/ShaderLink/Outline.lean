import ShaderLink.Declaration
import ShaderLink.Notice

/-!
# Outlines

The outline of a module: its imports, exports and declarations, and the code that is left when all
of them are blanked out.  Each pass takes the statements of one kind out of the code and leaves
blanks in their place, so that the offsets of what remains do not change.
-/

namespace ShaderLink

/-! ## Statements -/

namespace Statement

open Pattern

/-- A comma and the blanks around it. -/
def comma : Pattern := blanks ++ lit ',' ++ blanks

/-- The entries of a list, without empty ones. -/
def entries (t : Text) : List Text := (comma.splitOn t.trim).filter (!·.isEmpty)

/-- The three characters that may quote a path, if any does. -/
def quoteMark : Pattern := optional (oneOf "\"'`")

/-- An import: its entries (1), the quote in use (2) and the path (3). -/
def importForm : Pattern :=
  phrase "import" ++ blanks ++ lit '{' ++ blanks ++ group 1 (many (noneOf "\x7d")) ++ lit '}' ++
  blanks ++ phrase "from" ++ gap ++ group 2 quoteMark ++
  group 3 (many1 (one fun c => !Text.isBlank c && !"\"'`;".toList.contains c)) ++ again 2 ++ blanks ++
  optional (lit ';')

/-- An entry of an import: the name (1) and the alias (2). -/
def importEntry : Pattern :=
  textStart ++ group 1 identifier ++
  optional (gap ++ phrase "as" ++ gap ++ group 2 identifier) ++ textEnd

/-- An export, alone on its lines: its entries (1). -/
def exportForm : Pattern :=
  Form.indent ++ phrase "export" ++ blanks ++ lit '{' ++ group 1 (many1 (noneOf "\x7d")) ++
  lit '}' ++ many (oneOf " \t") ++ optional (lit ';') ++ many (oneOf " \t") ++ lineEnd

/-- An entry of an export: the qualifier (1), the name (2) and the alias (3). -/
def exportEntry : Pattern :=
  textStart ++ optional (group 1 identifier ++ gap) ++ group 2 identifier ++
  optional (gap ++ phrase "as" ++ gap ++ group 3 identifier) ++ textEnd

end Statement

/-! ## Passes over the code -/

/-- A step that takes statements out of the code; what it has taken stays out if it fails. -/
abbrev Pass := ExceptT Fault (StateM Text)

namespace Pass

/-- Blanks a span of the code. -/
def clear (start stop : Nat) : Pass Unit := modify fun code => code.blankOut start stop

/-- One entry of an import from the module at `target`. -/
def importEntry (path target entry : Text) : Except Fault Import :=
  match Statement.importEntry.search entry with
  | none => .error ((Cause.invalidImport entry).inModule path)
  | some m => .ok { name := m.group 1, path := target, aliasName := m.group? 2 }

/-- The entries of an import statement; the first at sign of its path stands for the library. -/
def importEntries (path library : Text) (m : Match) : Except Fault (List Import) :=
  if (m.group 1).trim.isEmpty then .error ((Cause.emptyImport m.text).inModule path)
  else
    let target := Text.replaceFirst ['@'] library (m.group 3)
    (Statement.entries (m.group 1)).mapM (importEntry path target)

/-- Takes out the import statements of the module at `path`. -/
def imports (path : Text) : Pass (List Import) := do
  let library ← ofExcept (libraryOf path)
  let found := Statement.importForm.sequence (← get)
  let lists ← found.mapM fun m => do
    let entries ← ofExcept (importEntries path library m)
    clear m.start m.stop
    return entries
  return lists.flatten

/-- The qualifier of an export, if it has one. -/
def qualifier (path : Text) : Option Text → Except Fault Bool
  | none => .ok false
  | some q =>
    if q = "internal".toList then .ok true
    else .error ((Cause.unknownQualifier q).inModule path)

/-- One entry of an export; an alias renames the declaration in the code, where it must be a new
word. -/
def exportEntry (path entry : Text) : Pass Export := do
  match Statement.exportEntry.search entry with
  | none => throw ((Cause.invalidExport entry).inModule path)
  | some m =>
    let isInternal ← ofExcept (qualifier path (m.group? 1))
    match m.group? 3 with
    | none => return { name := m.group 2, isInternal }
    | some newName =>
      if (← get).containsWord newName then throw ((Cause.aliasTaken newName).inModule path)
      modify fun code => code.replaceWord (m.group 2) newName
      return { name := newName, isInternal }

/-- Takes out the export statements; all of them are blanked before the first name changes. -/
def exports (path : Text) : Pass (List Export) := do
  let found := Statement.exportForm.sequence (← get)
  found.forM fun m => clear m.start m.stop
  let lists ← found.mapM fun m => (Statement.entries (m.group 1)).mapM (exportEntry path)
  return lists.flatten

/-- The end of a function and its parameters. -/
def functionExtent (path code : Text) (m : Match) : Except Fault (Nat × List Parameter) :=
  let extent := do
    let stop ← code.closingIndex '{' '}' m.start
    let parameters ← Parameter.ofList (m.group 4)
    return (stop, parameters)
  extent.mapError (Fault.within path)

/-- Takes out functions one by one, at most `fuel` of them. -/
def functionsFrom (path : Text) : (fuel : Nat) → Pass (List Declaration)
  | 0 => return []
  | fuel + 1 => do
    let code ← get
    match Form.functionHead.search code with
    | none => return []
    | some m =>
      let (stop, parameters) ← ofExcept (functionExtent path code m)
      let definition := (code.take stop).drop m.start
      clear m.start stop
      let others ← functionsFrom path fuel
      return .ofSource .function (m.group 3) path m.start definition parameters :: others

/-- Takes out the functions, bodies included.  Each of them has a brace of its own, so their number
is at most the length of the code. -/
def functions (path : Text) : Pass (List Declaration) := do
  functionsFrom path ((← get).length + 1)

/-- Takes out what has a form that is one match of it, with the name as the third part. -/
def matched (kind : Kind) (form : Pattern) (path : Text) : Pass (List Declaration) := do
  let found := form.sequence (← get)
  found.forM fun m => clear m.start m.stop
  return found.map fun m => .ofSource kind (m.group 3) path m.start m.text

/-- Takes out the uniforms. -/
def uniforms (path : Text) : Pass (List Declaration) := matched .uniform Form.uniformForm path

/-- Takes out the global variables. -/
def globals (path : Text) : Pass (List Declaration) := matched .global Form.globalForm path

/-- Takes out the structs. -/
def structs (path : Text) : Pass (List Declaration) := do
  let found := Form.structForm.sequence (← get)
  found.mapM fun m => do
    let definition := m.group 1
    let start := m.stop - definition.length
    let fields ← ofExcept ((Parameter.ofFields (m.group 3)).mapError (Fault.within path))
    clear start m.stop
    return .ofSource .struct (m.group 2) path start definition fields

/-- Takes out the macros. -/
def defines (path : Text) : Pass (List Declaration) := do
  let found := Form.defineForm.sequence (← get)
  found.mapM fun m => do
    let definition := m.group 1
    let start := m.stop - definition.length
    clear start m.stop
    return .ofSource .define (m.group 2) path start definition

end Pass

/-! ## Outlines -/

/-- What was found in a module so far, and the code that is left. -/
structure Outline where
  path : Text
  code : Text
  imports : List Import := []
  exports : List Export := []
  declarations : List Declaration := []
deriving DecidableEq

/-- Adds a name in sight, unless there is one with its id. -/
def addCandidate (known : List Reference) (r : Reference) : List Reference :=
  if known.any (·.id == r.id) then known else known ++ [r]

/-- The names in sight, imports first; of those with one id the first counts. -/
def candidates (declarations : List Declaration) (imports : List Import) : List Reference :=
  let imported := imports.map fun i => Reference.mk i.name i.path .imported i.aliasName
  let ambient := declarations.map fun d => Reference.mk d.name d.path .ambient none
  (imported ++ ambient).foldl addCandidate []

/-- Gives each declaration its references, up to the first one whose definition is unreadable. -/
def relateAll (names : List Reference) :
    List Declaration → List Declaration × List Notice × Except Fault Unit
  | [] => ([], [], .ok ())
  | d :: ds =>
    match d.relate names with
    | .error fault => (d :: ds, [], .error fault)
    | .ok d =>
      let (ds, notices, result) := relateAll names ds
      (d :: ds, .collected d.kind.name d.key (d.references.map (·.id)) :: notices, result)

/-- The imports that no declaration uses. -/
def unusedImports (declarations : List Declaration) (imports : List Import) : List Import :=
  imports.filter fun i => !declarations.any (·.uses i.id)

/-- An outline in the making, with what was noticed on the way. -/
structure Reading extends Outline where
  notices : List Notice := []

/-- A step of reading an outline; what was found so far stays if it fails. -/
abbrev Reader := ExceptT Fault (StateM Reading)

namespace Reader

/-- Runs a pass over the code that is left. -/
def onCode {α : Type} (pass : Text → Pass α) : Reader α := fun s =>
  let (result, code) := pass s.path s.code
  (result, { s with code })

/-- Writes something down. -/
def note (n : Notice) : Reader Unit := modify fun s => { s with notices := s.notices ++ [n] }

/-- Reads the imports. -/
def imports : Reader (List Import) := do
  let found ← onCode Pass.imports
  modify fun s => { s with imports := found }
  return found

/-- Reads the exports. -/
def exports : Reader (List Export) := do
  let found ← onCode Pass.exports
  modify fun s => { s with exports := s.exports ++ found }
  return found

/-- Reads the declarations of one kind. -/
def declarations (pass : Text → Pass (List Declaration)) : Reader (List Declaration) := do
  let found ← onCode pass
  modify fun s => { s with declarations := s.declarations ++ found }
  return found

/-- Runs all passes in order. -/
def everything : Reader Unit := do
  let _ ← imports
  let _ ← exports
  let _ ← declarations Pass.functions
  let _ ← declarations Pass.uniforms
  let _ ← declarations Pass.globals
  let _ ← declarations Pass.structs
  let _ ← declarations Pass.defines
  let s ← get
  note (.parsedModule s.path s.imports.length s.exports.length s.declarations.length)

/-- Gives the declarations their references. -/
def references : Reader Unit := do
  let s ← get
  let (declarations, notices, result) :=
    relateAll (candidates s.declarations s.imports) s.declarations
  set { s with declarations, notices := s.notices ++ notices }
  ofExcept result
  for i in unusedImports declarations s.imports do
    note (.unusedImport i.localName s.path)

end Reader

namespace Outline

/-- A module of which nothing has been read. -/
def unread (path code : Text) : Outline := { path, code }

/-- Runs a step of reading on an outline: the result, the outline after it and the notices. -/
def step {α : Type} (o : Outline) (r : Reader α) : Except Fault α × Outline × List Notice :=
  let (result, s) := r { toOutline := o }
  (result, s.toOutline, s.notices)

/-- The declarations of a module, without their references. -/
def ofCode (path code : Text) : Except Fault Outline :=
  let (result, o, _) := (unread path code).step Reader.everything
  result.map fun _ => o

/-- The outline of a module with all references. -/
def read (path code : Text) : Except Fault Outline × List Notice :=
  let (result, o, notices) := (unread path code).step do
    Reader.everything
    Reader.references
  (result.map fun _ => o, notices)

end Outline

end ShaderLink
