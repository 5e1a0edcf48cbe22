import ShaderLink.Link
import ShaderLink.Manifest

/-!
# Loading libraries from folders

The modules of a library are the files of its folder whose names end in `.glsl`, at any depth.
Libraries that are loaded together can depend on each other by name.
-/

namespace ShaderLink

/-! ## Definitions -/

namespace Tree

variable {α : Type}

/-- Enters a leaf under a key; the key keeps its place if it has one. -/
def setLeaf (key : Text) (a : α) : Tree α → Tree α
  | nil => leaf key a nil
  | leaf k b rest => if k = key then leaf key a rest else leaf k b (setLeaf key a rest)
  | branch k inner rest => if k = key then leaf key a rest else branch k inner (setLeaf key a rest)

/-- Enters a tree under a key; the key keeps its place if it has one. -/
def setBranch (key : Text) (t : Tree α) : Tree α → Tree α
  | nil => branch key t nil
  | leaf k b rest => if k = key then branch key t rest else leaf k b (setBranch key t rest)
  | branch k inner rest =>
    if k = key then branch key t rest else branch k inner (setBranch key t rest)

end Tree

namespace Folder

/-- The end of the names of module files. -/
def moduleSuffix : Text := ".glsl".toList

/-- The name of a module file without its end. -/
def moduleStem? (name : Text) : Option Text :=
  if moduleSuffix.isSuffixOf name && moduleSuffix.length < name.length then
    some (name.take (name.length - moduleSuffix.length))
  else none

/-- The key of a module with a stem; the index stands for the folder itself. -/
def moduleKey (stem : Text) : Text := if stem = "index".toList then Tree.indexKey else stem

/-- Adds the modules of the entries of a folder to a definition; folders without modules are left
out.  The folder lies at the route `here`, and each entry is looked up from there in its turn. -/
def addModules (here : Route) : Folder → Tree Source → Except Fault (Tree Source)
  | .nil, t => .ok t
  | .branch name inner rest, t => do
    (here ++ [name]).check
    let modules ← addModules (here ++ [name]) inner .nil
    addModules here rest (if modules.isEmpty then t else Tree.setBranch name modules t)
  | .leaf name f rest, t => do
    (here ++ [name]).check
    match moduleStem? name with
    | none => addModules here rest t
    | some stem =>
      let code ← File.text f
      addModules here rest (Tree.setLeaf (moduleKey stem) (.code code) t)

/-- The definition of a library by the folder at a route. -/
def definition (root : Folder) (r : Route) : Except Fault (Tree Source) := do
  (← root.readFolder r).addModules r .nil

end Folder

/-! ## Libraries -/

section Libraries

open LinkM

variable [Manifest.Reader]

/-- Loads the library in a folder; it does not depend on others yet. -/
def loadLibrary (root : Folder) (folder : Route) (plugins : List Plugin) :
    LinkM (LibraryId × Manifest) := do
  if !(← ofExcept (root.isFolder folder)) then throw (Cause.missingFolder folder.text).fault
  let manifest ← ofExcept (Manifest.read root folder)
  let definition ← ofExcept (root.definition folder)
  if definition.isEmpty then note (.noModules manifest.name folder.text)
  note (.loadedLibrary manifest.name folder.text)
  let id ← LinkM.addLibrary manifest.name (.tree definition) plugins []
  return (id, manifest)

/-- Loads the libraries in several folders, and connects each with those it depends on. -/
def loadLibraries (root : Folder) (folders : List Route) (plugins : List Plugin) :
    LinkM (List LibraryId) := do
  let loaded ← folders.mapM fun f => loadLibrary root f plugins
  let byName := Table.ofList (loaded.map fun l => (l.2.name, l.1))
  loaded.forM fun l => l.2.dependencies.forM fun name =>
    match byName.get? name with
    | none => throw (Cause.unknownDependency l.2.name name).fault
    | some id => LinkM.addDependency l.1 id
  return loaded.map Prod.fst

end Libraries

end ShaderLink
