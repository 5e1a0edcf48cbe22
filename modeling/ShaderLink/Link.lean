import ShaderLink.Compile
import ShaderLink.Precedence
import ShaderLink.Renaming

/-!
# Linking

A module is linked with everything it needs into one text: what is left of its code, and then all
declarations, each after those it needs and under a name of its own.  A registry holds what shaders
are linked with.
-/

namespace ShaderLink

open LinkM

/-! ## The text -/

/-- Line ends with only blanks between them. -/
def emptyLines : Pattern :=
  Pattern.many1 (Pattern.lit '\n') ++ Pattern.blanks ++ Pattern.many1 (Pattern.lit '\n')

/-- A text in which one empty line takes the place of several. -/
def normalise (t : Text) : Text := emptyLines.substitute (fun _ => "\n\n".toList) t

/-- The parts of the linked text: the code of the module, and the declarations in order. -/
def partsOf (remainder : Text) (renames : Table Text Text) (ordered : List Declaration) :
    List Text :=
  (remainder.trim :: ordered.map (·.block renames)).filter (!·.isEmpty)

/-- The linked text. -/
def linkedText (remainder : Text) (renames : Table Text Text) (ordered : List Declaration) : Text :=
  normalise (Text.join "\n\n".toList (partsOf remainder renames ordered))

/-! ## Modules -/

/-- The declarations of a module and everything they need. -/
def gather (id : ModuleId) : LinkM (List Declaration) := do
  let s ← get
  let m := s.module id
  let found ← reach m.declarations (s.librariesOf m.scope)
  let own := ((← get).module id).declarations
  return own ++ found.filter fun d => !own.any (·.serial == d.serial)

/-- Links a module with everything it needs. -/
def linkModule (id : ModuleId) : LinkM Text := do
  let declarations ← gather id
  let renames := Renaming.ofDeclarations declarations
  (Renaming.warnings declarations).forM note
  let m := (← get).module id
  if !renames.isEmpty then note (.renamed m.path renames)
  let ordered ← ofExcept (Precedence.sort declarations)
  note (.resolved m.path (ordered.map (·.key)))
  return linkedText m.remainder renames ordered

/-! ## The registry -/

namespace Registry

/-- The path of the shader that is linked. -/
def shaderPath : Text := "@shader".toList

/-- Registers a library under its name. -/
def addLibrary (id : LibraryId) : LinkM Unit := do
  let s ← get
  let name := (s.library id).name
  if (s.registry.libraries.get? name).isSome then note (.replacedLibrary name)
  modify fun s =>
    { s with
      registry := { s.registry with libraries := s.registry.libraries.insert name id } }

/-- Lets a plugin work on all shaders from now on. -/
def addPlugin (p : Plugin) : LinkM Unit :=
  modify fun s => { s with registry := { s.registry with plugins := s.registry.plugins ++ [p] } }

/-- Makes the module of a shader, with plugins applied. -/
def makeShader (code : Text) : LinkM ModuleId := do
  let scope : Scope := { serial := ← fresh, owner := .registry }
  let id ← makeModule shaderPath code scope true
  applyPlugins id
  return id

/-- Links a shader with the registered libraries. -/
def link (code : Text) : LinkM Text := do
  linkModule (← makeShader code)

end Registry

/-- Links a shader with the given libraries and plugins. -/
def linkShader (code : Text) (libraries : List LibraryId) (plugins : List Plugin) : LinkM Text := do
  modify fun s => { s with registry := {} }
  libraries.forM Registry.addLibrary
  plugins.forM Registry.addPlugin
  Registry.link code

end ShaderLink
