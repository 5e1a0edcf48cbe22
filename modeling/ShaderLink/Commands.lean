import ShaderLink.Loading
import ShaderLink.Plugin.Catalogue

/-!
# Commands

Two commands: `resolve` links a shader with libraries, and `inspect` shows what the folder of a
library compiles to.  A command works on a folder of files; it ends with a text to show and the folder
as it is then, or early, and its notices are left in the store.
-/

namespace ShaderLink.Commands

/-! ## Requests -/

/-- The options of a command. -/
structure Options where
  libraries : List Text := []
  plugins : List Text := []
  output : Option Text := none
  isVerbose : Bool := false
deriving DecidableEq

/-- A command with its operand and its options. -/
inductive Request where
  | resolve (shader : Text) (options : Options)
  | inspect (folder : Text) (options : Options)
deriving DecidableEq

namespace Request

/-- The options of a request. -/
def options : Request → Options
  | resolve _ o | inspect _ o => o

/-- The paths from which a request reads. -/
def sources : Request → List Text
  | resolve path o | inspect path o => path :: o.libraries

/-- The paths that a request names. -/
def paths (r : Request) : List Text := r.sources ++ r.options.output.toList

end Request

/-! ## Running -/

/-- Why a run ends early. -/
inductive Stop where
  /-- Something could not be done, and that was reported. -/
  | reported
  /-- A fault that no one expects. -/
  | escaped (fault : Fault)

/-- A computation that may end the run. -/
abbrev Command := ExceptT Stop (StateM Store)

/-- Runs a computation on the store; faults of the expected kind are reported. -/
def orReport {α : Type} (expected : Fault → Bool) (what : String) (a : LinkM α) : Command α := do
  let (result, store) := a (← get)
  set store
  match result with
  | .ok v => return v
  | .error fault =>
    if expected fault then
      set { store with notices := store.notices ++ [Notice.failure (what ++ fault.text).toList] }
      throw .reported
    else throw (.escaped fault)

/-- Faults of the linker itself. -/
def isOwn (f : Fault) : Bool := f.cause.family.isSome

/-- Faults that come from files and folders. -/
def isMissing (f : Fault) : Bool :=
  match f.cause with
  | .noFile _ | .isAFolder _ | .notAFolder _ | .pathTooLong _ => true
  | _ => false

/-- The plugins of the given ids. -/
def makePlugins (ids : List Text) : Command (List Plugin) :=
  orReport (fun _ => true) "" (ofExcept (ids.zipIdx.mapM fun p => Plugin.ofId p.1 p.2))

section Run

variable [Manifest.Reader]

/-- Loads libraries from folders. -/
def load (root : Folder) (folders : List Text) (plugins : List Plugin) : Command (List LibraryId) :=
  orReport isOwn "Failed to load libraries: "
    (loadLibraries root (folders.map Route.ofText) plugins)

/-- What a command writes: a text to show, and a text for a file. -/
structure Output where
  shown : Text := []
  root : Folder

/-- Links a shader, and shows the text or writes it to a file. -/
def resolve (root : Folder) (shader : Text) (o : Options) : Command Output := do
  let route := Route.ofText shader
  let code ← orReport isMissing s!"Failed to read shader {String.ofList route.text}: "
    (ofExcept (root.readText route))
  let plugins ← makePlugins o.plugins
  let libraries ← load root o.libraries plugins
  let linked ← orReport isOwn "Resolution error: " (linkShader code libraries plugins)
  match o.output with
  | none => return { shown := linked ++ ['\n'], root }
  | some file =>
    let route := Route.ofText file
    let root ← orReport (fun _ => false) "" (ofExcept (root.writeText route (linked ++ ['\n'])))
    modify fun s => { s with notices := s.notices ++ [.wroteShader route.text] }
    return { root }

/-- One line for each module, export and declaration of a library. -/
def describe (store : Store) (l : Library) : List Text :=
  let exportLine (e : Export) : Text :=
    "    export ".toList ++ (if e.isInternal then "internal ".toList else []) ++ e.name
  let declarationLine (d : Declaration) : Text :=
    let uses := if d.references.isEmpty then ['-']
      else Text.join ", ".toList (d.references.map (·.id))
    "    ".toList ++ d.kind.name ++ ' ' :: d.key ++ " <- ".toList ++ uses
  let moduleLines (p : Text × ModuleId) : List Text :=
    let m := store.module p.2
    ("  module ".toList ++ p.1) :: m.exports.map exportLine ++ m.declarations.map declarationLine
  ("library ".toList ++ l.name) :: l.modules.flatMap moduleLines

/-- Compiles the library in a folder, and shows its modules. -/
def inspect (root : Folder) (folder : Text) (o : Options) : Command Output := do
  match ← load root (folder :: o.libraries) [] with
  | [] => return { root }
  | id :: _ =>
    let name := ((← get).library id).name
    orReport isOwn s!"Failed to compile library {String.ofList name}: " (compile id)
    let store ← get
    let lines := describe store (store.library id)
    return { shown := lines.flatMap (· ++ ['\n']), root }

/-- The computation that a request stands for. -/
def perform (root : Folder) : Request → Command Output
  | .resolve shader o => resolve root shader o
  | .inspect folder o => inspect root folder o

end Run

/-! ## Notices -/

/-- The name of a level, filled up to eight characters. -/
def levelName : Level → Text
  | .debug => "DEBUG   ".toList
  | .info => "INFO    ".toList
  | .warning => "WARNING ".toList
  | .error => "ERROR   ".toList

/-- The line of a notice. -/
def line (n : Notice) : Text := levelName n.level ++ " | ".toList ++ n.message.toList ++ ['\n']

/-- The lines of the notices; those for debugging only if they are asked for. -/
def logText (isVerbose : Bool) (ns : List Notice) : Text :=
  (ns.filter fun n => isVerbose || n.level != .debug).flatMap line

end ShaderLink.Commands
