import ShaderLink.Plugin.Basic
import ShaderLink.Table
import ShaderLink.Tree

/-!
# Modules, libraries and the store

A store holds all modules and libraries; they refer to each other by number, so that libraries may
depend on each other in a circle.  A module belongs to a scope, which says what it can import and
which plugins work on it.  A library's modules are made when the library is compiled.
-/

namespace ShaderLink

/-- The number of a module in a store. -/
abbrev ModuleId := Nat

/-- The number of a library in a store. -/
abbrev LibraryId := Nat

/-- Whose imports and plugins a module has. -/
inductive Owner where
  /-- Its own. -/
  | alone (libraries : Table Text LibraryId) (plugins : List Plugin)
  /-- Those of a library. -/
  | library (id : LibraryId)
  /-- Those of the registry. -/
  | registry

/-- The scope of modules.  Scopes with different serial numbers are different, even if they have the
same owner. -/
structure Scope where
  serial : Nat := 0
  owner : Owner := .alone [] []

/-- One unit of source text and what was found in it. -/
structure Module where
  path : Text
  source : Text
  scope : Scope := {}
  isShader : Bool := false
  declarations : List Declaration := []
  imports : List Import := []
  exports : List Export := []
  /-- The code that is left. -/
  remainder : Text := []
  /-- What plugins saw when they worked on the module last. -/
  surroundings : Option Surroundings := none

/-- A leaf in the definition of a library. -/
inductive Source where
  /-- The text of a module. -/
  | code (t : Text)
  /-- A module that exists already. -/
  | built (id : ModuleId)
  /-- Something else, and what that is called. -/
  | unsupported (sort : Text)
deriving DecidableEq

/-- What a library is made of. -/
inductive Definition where
  | tree (t : Tree Source)
  /-- Something that is neither a module nor a tree. -/
  | unusable

/-- The definition by a single module, which gets the path of the library. -/
def Definition.single (s : Source) : Definition := .tree (.leaf Tree.indexKey s .nil)

/-- A named tree of modules. -/
structure Library where
  name : Text
  definition : Definition
  plugins : List Plugin := []
  /-- The libraries that its modules can import from, by name. -/
  dependencies : Table Text LibraryId := []
  isCompiled : Bool := false
  modules : Table Text ModuleId := []

/-- The libraries and plugins that a shader is linked with. -/
structure Registry where
  libraries : Table Text LibraryId := []
  plugins : List Plugin := []

/-- All modules and libraries, and what happened to them so far. -/
structure Store where
  libraries : Array Library := #[]
  modules : Array Module := #[]
  registry : Registry := {}
  nextSerial : Nat := 1
  notices : List Notice := []
  /-- The calls of plugins, each with the serial number of the plugin. -/
  calls : List (Nat × Call) := []

/-- A computation on a store; what it did stays done if it fails. -/
abbrev LinkM := ExceptT Fault (StateM Store)

namespace Store

/-- The library of a number; an empty one if there is none. -/
def library (s : Store) (id : LibraryId) : Library :=
  s.libraries.getD id { name := [], definition := .tree .nil }

/-- The module of a number; an empty one if there is none. -/
def module (s : Store) (id : ModuleId) : Module :=
  s.modules.getD id { path := [], source := [] }

/-- What the modules of a scope can import from. -/
def librariesOf (s : Store) (scope : Scope) : Table Text LibraryId :=
  match scope.owner with
  | .alone libraries _ => libraries
  | .library id => (s.library id).dependencies
  | .registry => s.registry.libraries

/-- The plugins that work on the modules of a scope. -/
def pluginsOf (s : Store) (scope : Scope) : List Plugin :=
  match scope.owner with
  | .alone _ plugins => plugins
  | .library id => (s.library id).plugins
  | .registry => s.registry.plugins

end Store

namespace LinkM

/-- Writes something down. -/
def note (n : Notice) : LinkM Unit := modify fun s => { s with notices := s.notices ++ [n] }

/-- Remembers a call of a plugin. -/
def remember (p : Plugin) (c : Call) : LinkM Unit :=
  modify fun s => { s with calls := s.calls ++ [(p.serial, c)] }

/-- A number that was not used before. -/
def fresh : LinkM Nat := do
  let s ← get
  set { s with nextSerial := s.nextSerial + 1 }
  return s.nextSerial

/-- Changes a library. -/
def changeLibrary (id : LibraryId) (f : Library → Library) : LinkM Unit :=
  modify fun s => { s with libraries := s.libraries.modify id f }

/-- Changes a module. -/
def changeModule (id : ModuleId) (f : Module → Module) : LinkM Unit :=
  modify fun s => { s with modules := s.modules.modify id f }

/-- Adds a library, which may import from itself and from the given ones. -/
def addLibrary (name : Text) (definition : Definition) (plugins : List Plugin)
    (dependencies : List LibraryId) : LinkM LibraryId := do
  let s ← get
  let id := s.libraries.size
  let named := dependencies.map fun d => ((s.library d).name, d)
  let dependencies := Table.ofList ((name, id) :: named)
  set { s with libraries := s.libraries.push { name, definition, plugins, dependencies } }
  return id

/-- Lets the modules of a library import from another one. -/
def addDependency (id dependency : LibraryId) : LinkM Unit := do
  let name := ((← get).library dependency).name
  changeLibrary id fun l => { l with dependencies := l.dependencies.insert name dependency }

end LinkM

end ShaderLink
