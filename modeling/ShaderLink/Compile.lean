import ShaderLink.Outline
import ShaderLink.Reach
import ShaderLink.Text.Comment

/-!
# Compiling

A module is read when it is made, and again when it gets a new scope.  A library is compiled when
something in it is looked up for the first time: all modules of its tree are made, and then plugins
work on each of them, which may need further libraries.  If this fails, the library is as it was
before.
-/

namespace ShaderLink

open LinkM

/-! ## Modules -/

/-- Lets the plugins change a text before it is read. -/
def preprocessAll (plugins : List Plugin) (isShader : Bool) (code : Text) : LinkM Text :=
  plugins.foldlM (fun code p => do
    remember p (.preprocess isShader code)
    let (result, notices) := p.preprocess isShader code
    notices.forM note
    ofExcept result) code

/-- Gives a serial number to each declaration that has none. -/
def stamp (ds : List Declaration) : LinkM (List Declaration) :=
  ds.mapM fun d => if d.serial = 0 then return { d with serial := ← fresh } else return d

/-- Reads a text: comments are taken out, and plugins come before all passes. -/
def readSource (path source : Text) (isShader : Bool) (scope : Scope) : LinkM Outline := do
  let plugins := (← get).pluginsOf scope
  let code ← preprocessAll plugins isShader (Comment.strip source)
  let (result, notices) := Outline.read path code
  notices.forM note
  let o ← ofExcept result
  return { o with declarations := ← stamp o.declarations }

/-- A module with what was read in its source. -/
def Module.withOutline (m : Module) (o : Outline) : Module :=
  { m with
    declarations := o.declarations
    imports := o.imports
    exports := o.exports
    remainder := o.code }

/-- Makes a module from its source. -/
def makeModule (path source : Text) (scope : Scope) (isShader : Bool) : LinkM ModuleId := do
  let o ← readSource path source isShader scope
  let s ← get
  let m : Module := { path, source, scope, isShader }
  set { s with modules := s.modules.push (m.withOutline o) }
  return s.modules.size

/-- Moves a module to another scope, where it is read again. -/
def bindModule (id : ModuleId) (scope : Scope) : LinkM Unit := do
  let m := (← get).module id
  if m.scope.serial = scope.serial then return
  changeModule id fun m => { m with scope }
  let o ← readSource m.path m.source m.isShader scope
  changeModule id fun m => m.withOutline o

/-! ## Plugins -/

/-- What plugins see of the module. -/
def Module.seen (m : Module) : Surroundings :=
  m.surroundings.getD (.of m.path m.declarations m.imports [])

/-- The module with other declarations, and with surroundings that go with them. -/
def Module.showing (m : Module) (seen : Surroundings) (ds : List Declaration) : Module :=
  { m with declarations := ds, surroundings := some seen }

/-- Lets one plugin change the declarations of a module. -/
def transformWith (id : ModuleId) (p : Plugin) : LinkM Unit := do
  let m := (← get).module id
  remember p (.transform m.isShader (m.declarations.map (·.key)) m.seen)
  let t := p.transform m.isShader m.seen m.declarations
  changeModule id fun m => m.showing (m.seen.refresh t.edited) t.edited
  match ← ofExcept t.replacement with
  | none => return
  | some ds =>
    let ds ← stamp ds
    changeModule id fun m => m.showing (m.seen.replace ds) ds

/-- Lets one plugin change the definition of the declaration at a place, which it sees as earlier
calls have left it. -/
def postprocessAt (id : ModuleId) (p : Plugin) (i : Nat) : LinkM Unit := do
  let m := (← get).module id
  match m.declarations[i]? with
  | none => return
  | some d =>
    remember p (.postprocess m.isShader d.key d.definition)
    let definition ← ofExcept (p.postprocess m.isShader m.seen d d.definition)
    let edited := [{ d with definition }]
    changeModule id fun m =>
      m.showing (m.seen.refresh edited) (m.declarations.map (·.latest edited))

/-- Lets one plugin change the definitions of a module. -/
def postprocessWith (id : ModuleId) (p : Plugin) : LinkM Unit := do
  let m := (← get).module id
  (List.range m.declarations.length).forM (postprocessAt id p)

/-- Lets the plugins of a module's scope work on it; `reach` finds what it needs. -/
def applyPluginsWith
    (reach : List Declaration → Table Text LibraryId → LinkM (List Declaration))
    (id : ModuleId) : LinkM Unit := do
  let s ← get
  let m := s.module id
  let plugins := s.pluginsOf m.scope
  let found ← reach m.declarations (s.librariesOf m.scope)
  changeModule id fun m =>
    { m with surroundings := some (.of m.path m.declarations m.imports found) }
  plugins.forM (transformWith id)
  plugins.forM (postprocessWith id)
  if !plugins.isEmpty then note (.appliedPlugins m.path (plugins.map (·.id)))

/-! ## Libraries -/

/-- Makes or takes in the module of one leaf. -/
def placeModule (library : LibraryId) (scope : Scope) (path : Text) : Source → LinkM Unit
  | .code t => do
    let id ← makeModule path t scope false
    changeLibrary library fun l => { l with modules := l.modules.insert path id }
  | .built id => do
    let m := (← get).module id
    if m.path ≠ path then throw (Cause.misplacedModule m.path path).fault
    bindModule id scope
    changeLibrary library fun l => { l with modules := l.modules.insert path id }
  | .unsupported sort => throw (Cause.unsupportedDefinition path sort).fault

/-- Makes the modules of a library. -/
def makeModules (id : LibraryId) : LinkM Unit := do
  let l := (← get).library id
  let scope : Scope := { serial := ← fresh, owner := .library id }
  match l.definition with
  | .tree t => t.forLeaves (placeModule id scope) l.name
  | .unusable => throw Cause.notATree.fault

/-- Compiles a library, unless it is compiled or just being compiled; `depth` bounds the number of
libraries that are compiled inside each other. -/
def compileAt : (depth : Nat) → LibraryId → LinkM Unit
  | 0, _ => throw Cause.endless.fault
  | depth + 1, id => do
    let l := (← get).library id
    if l.isCompiled then return
    changeLibrary id fun l => { l with isCompiled := true }
    note (.compiling l.name)
    tryCatch
      (do
        makeModules id
        let modules := ((← get).library id).modules.values
        modules.forM (applyPluginsWith (reachWith (compileAt depth))))
      (fun fault => do
        changeLibrary id fun l => { l with modules := [], isCompiled := false }
        throw fault)
    note (.compiled l.name ((← get).library id).modules.keys)

/-- Compiles a library, unless that is done. -/
def compile (id : LibraryId) : LinkM Unit := do
  compileAt ((← get).libraries.size + 1) id

/-- Everything that the roots need. -/
def reach (roots : List Declaration) (libraries : Table Text LibraryId) :
    LinkM (List Declaration) :=
  reachWith compile roots libraries

/-- Lets the plugins of a module's scope work on it. -/
def applyPlugins (id : ModuleId) : LinkM Unit := applyPluginsWith reach id

/-- All declarations of a name in a library, which is compiled for it if need be. -/
def lookup (id : LibraryId) (path name : Text) (origin : Origin) (user : Text) :
    LinkM (List Declaration) := do
  compile id
  let s ← get
  ofExcept (s.lookup (s.library id) path name origin user)

end ShaderLink
