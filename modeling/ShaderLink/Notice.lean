import ShaderLink.Text.Quoted

/-!
# Notices

What the linker writes down while it works, with its weight and its wording.
-/

namespace ShaderLink

/-- The weight of a notice. -/
inductive Level where
  | debug
  | info
  | warning
  | error
deriving DecidableEq, Repr

/-- Something worth writing down. -/
inductive Notice where
  | parsedModule (path : Text) (imports exports declarations : Nat)
  | collected (kind key : Text) (references : List Text)
  | unusedImport (name path : Text)
  | appliedPlugins (path : Text) (ids : List Text)
  | compiling (library : Text)
  | compiled (library : Text) (modules : List Text)
  | renamed (path : Text) (renames : List (Text × Text))
  | nameTaken (id newName owner : Text)
  | resolved (path : Text) (order : List Text)
  | replacedLibrary (library : Text)
  | expandedNamespace (namespaceName path : Text) (imports : Nat)
  | noModules (library folder : Text)
  | loadedLibrary (library folder : Text)
  | wroteShader (file : Text)
  /-- A report of the command line that something could not be done. -/
  | failure (message : Text)
deriving DecidableEq

namespace Notice

def level : Notice → Level
  | parsedModule .. | collected .. | appliedPlugins .. | compiled .. | renamed .. | resolved ..
  | expandedNamespace .. => .debug
  | compiling .. | loadedLibrary .. | wroteShader .. => .info
  | unusedImport .. | nameTaken .. | replacedLibrary .. | noModules .. => .warning
  | failure .. => .error

/-- Pairs of quoted texts in braces. -/
def quotedPairs (ps : List (Text × Text)) : String :=
  let shown := ps.map fun p => p.1.quoted ++ ": " ++ p.2.quoted
  "\x7b" ++ ", ".intercalate shown ++ "\x7d"

def message : Notice → String
  | parsedModule path imports exports declarations =>
    s!"Parsed module {String.ofList path}: {imports} imports, {exports} exports, " ++
    s!"{declarations} entities"
  | collected kind key references =>
    s!"Collected {String.ofList kind}: {String.ofList key}, " ++
    s!"dependencies: {Text.quotedList references}"
  | unusedImport name path => s!"Unused import {String.ofList name} in {String.ofList path}"
  | appliedPlugins path ids =>
    s!"Applied {ids.length} plugins to {String.ofList path}: {Text.quotedList ids}"
  | compiling library => s!"Compiling library {String.ofList library}"
  | compiled library modules =>
    s!"Library {String.ofList library} modules: {Text.quotedList modules}"
  | renamed path renames =>
    s!"Renamed colliding entities in {String.ofList path}: {quotedPairs renames}"
  | nameTaken id newName owner =>
    s!"Renamed {String.ofList id} to {String.ofList newName}, which is already declared " ++
    s!"by {String.ofList owner}"
  | resolved path order =>
    s!"Resolved {String.ofList path}: {order.length} entities, order {Text.quotedList order}"
  | replacedLibrary library => s!"Replacing registered library {String.ofList library}"
  | expandedNamespace namespaceName path imports =>
    s!"Expanded namespace {String.ofList namespaceName} of {String.ofList path} " ++
    s!"into {imports} imports"
  | noModules library folder =>
    s!"Library {String.ofList library} in {String.ofList folder} has no modules"
  | loadedLibrary library folder =>
    s!"Loaded library {String.ofList library} from {String.ofList folder}"
  | wroteShader file => s!"Resolved shader written to {String.ofList file}"
  | failure message => String.ofList message

end Notice

end ShaderLink
