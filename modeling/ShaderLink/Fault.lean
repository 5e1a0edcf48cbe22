import ShaderLink.Text.Quoted

/-!
# Faults

Everything that can go wrong while modules are read, compiled and linked, as a cause, together
with the module in which it was found.  `Cause.family` says which family of faults a cause belongs
to; causes without a family are not the linker's own and pass through it unchanged.
-/

namespace ShaderLink

/-- Families of the linker's own faults. -/
inductive Family where
  | linker
  | parse
  | malformedBlock
  | unbalancedBrackets
  | lookup
  | visibility
  | cyclic
  | invariant
  | definition
  | plugin
deriving DecidableEq, Repr

namespace Family

/-- A family and all wider ones, the narrowest first. -/
def ancestry : Family → List Family
  | linker => [linker]
  | malformedBlock => [malformedBlock, parse, linker]
  | unbalancedBrackets => [unbalancedBrackets, parse, linker]
  | visibility => [visibility, lookup, linker]
  | f => [f, linker]

end Family

/-- Something that can be written down in a manifest but does not exist; a number may also be too
large to be kept. -/
structure Impossible where
  message : Text
  isOverflow : Bool
deriving DecidableEq

/-- What went wrong. -/
inductive Cause where
  /-- A block was looked for, and there was no opening bracket from an offset on. -/
  | noBlock (opening : Text) (start : Int)
  /-- A block was opened but not closed. -/
  | unclosedBlock
  /-- Opening and closing brackets of a list do not cancel out. -/
  | unbalancedBrackets (text : Text)
  /-- A parameter is not a type and a name. -/
  | invalidParameter (text : Text)
  /-- A declaration of several fields has no word for their type. -/
  | missingFieldType
  /-- A path or an id with an empty first segment. -/
  | noLibraryName (path : Text)
  | emptyImport (statement : Text)
  | invalidImport (entry : Text)
  | invalidExport (entry : Text)
  | unknownQualifier (qualifier : Text)
  /-- An export alias is a word of the module already. -/
  | aliasTaken (newName : Text)
  /-- The definition of a declaration is not of its kind. -/
  | unreadableDefinition (kind : Text) (definition : Text)
  | noEntity (name path : Text)
  | noExport (name path : Text)
  | internalExport (name library origin : Text)
  | noModule (path library : Text)
  | noLibrary (library target origin : Text)
  /-- Two declarations of different modules depend on each other. -/
  | mutualDependency (first second : Text)
  /-- Declarations that can never be emitted. -/
  | stuck (keys : List Text)
  /-- A module that was built for another place. -/
  | misplacedModule (own place : Text)
  | unsupportedDefinition (path : Text) (sort : Text)
  /-- The definition of a whole library is neither a module nor a tree. -/
  | notATree
  | missingFolder (folder : Text)
  | invalidManifest (file reason : Text)
  | manifestNotMapping (file : Text)
  | invalidManifestName (file : Text)
  | invalidManifestDependencies (file : Text)
  | unknownDependency (library dependency : Text)
  | unreadableArguments (text : Text)
  | noCallable (callee : Text)
  | noOverload (callee : Text) (names : List Text)
  | unknownPlugin (id : Text) (available : List Text)
  /-- A file does not hold text. -/
  | notText
  | notAFolder (path : Text)
  | isAFolder (path : Text)
  | noFile (path : Text)
  /-- A path, or a name in it, has more bytes than a file system takes. -/
  | pathTooLong (path : Text)
  /-- A path holds the character that ends texts outside of this program. -/
  | nullInPath
  /-- A manifest names something that does not exist. -/
  | impossibleValue (i : Impossible)
  /-- A fault that an extension reports in its own words. -/
  | reported (family : Family) (message : Text)
deriving DecidableEq

namespace Cause

/-- The family of a cause, if it is one of the linker's own. -/
def family : Cause → Option Family
  | noBlock .. | unclosedBlock => some .malformedBlock
  | unbalancedBrackets .. => some .unbalancedBrackets
  | invalidParameter .. | emptyImport .. | invalidImport .. | invalidExport ..
  | unknownQualifier .. | aliasTaken .. | unreadableDefinition .. | unreadableArguments .. =>
    some .parse
  | noLibraryName .. | noEntity .. | noExport .. | noModule .. | noLibrary .. => some .lookup
  | internalExport .. => some .visibility
  | mutualDependency .. => some .cyclic
  | stuck .. => some .invariant
  | misplacedModule .. | unsupportedDefinition .. | missingFolder .. | invalidManifest ..
  | manifestNotMapping .. | invalidManifestName .. | invalidManifestDependencies ..
  | unknownDependency .. => some .definition
  | noCallable .. | noOverload .. => some .plugin
  | reported family _ => some family
  | missingFieldType | notATree | unknownPlugin .. | notText | notAFolder .. | isAFolder ..
  | noFile .. | pathTooLong .. | nullInPath | impossibleValue .. => none

/-- The cause in words. -/
def message : Cause → String
  | noBlock opening start =>
    s!"No block opening '{String.ofList opening}' found after index {start}"
  | unclosedBlock => "Invalid code block, finished inside unclosed brackets"
  | unbalancedBrackets text => s!"Unbalanced brackets in {text.quoted}"
  | invalidParameter text => s!"Invalid argument format: {String.ofList text}"
  | missingFieldType => "No type before the first of several fields"
  | noLibraryName path => s!"Unable to extract library name from {path.quoted}"
  | emptyImport statement => s!"Missing imports in {statement.quoted}"
  | invalidImport entry => s!"Invalid import: {String.ofList entry}"
  | invalidExport entry => s!"Invalid export entry: {String.ofList entry}"
  | unknownQualifier qualifier => s!"Invalid export qualifier \"{String.ofList qualifier}\""
  | aliasTaken newName => s!"Export alias \"{String.ofList newName}\" exists in same module"
  | unreadableDefinition kind definition =>
    s!"Unable to extract {String.ofList kind} parts from {definition.quoted}"
  | noEntity name path =>
    s!"Could not find entity \"{String.ofList name}\" in module {String.ofList path}"
  | noExport name path => s!"No export \"{String.ofList name}\" in module {String.ofList path}"
  | internalExport name library origin =>
    s!"Cannot import internal export \"{String.ofList name}\" from outside " ++
    s!"\"{String.ofList library}\" (requested by {String.ofList origin})"
  | noModule path library =>
    s!"No module \"{String.ofList path}\" in library {String.ofList library}"
  | noLibrary library target origin =>
    s!"No library \"{String.ofList library}\" available to resolve " ++
    s!"\"{String.ofList target}\" (required by {String.ofList origin})"
  | mutualDependency first second =>
    "Cyclic dependency between modules not allowed: " ++
    s!"{String.ofList first} and {String.ofList second}"
  | stuck keys => s!"Dependency graph has cycle through {Text.quotedList keys}"
  | misplacedModule own place =>
    s!"Module \"{String.ofList own}\" placed at \"{String.ofList place}\""
  | unsupportedDefinition path sort =>
    s!"Unsupported definition for {path.quoted}: {String.ofList sort}"
  | notATree => "A library is defined by a module or a tree of modules"
  | missingFolder folder => s!"Library directory {String.ofList folder} does not exist"
  | invalidManifest file reason =>
    s!"Invalid manifest {String.ofList file}: {String.ofList reason}"
  | manifestNotMapping file => s!"Manifest {String.ofList file} must be a mapping"
  | invalidManifestName file => s!"Invalid library name in {String.ofList file}"
  | invalidManifestDependencies file =>
    s!"Dependencies in {String.ofList file} must be a list of library names"
  | unknownDependency library dependency =>
    s!"Library {String.ofList library} depends on unknown library " ++
    s!"\"{String.ofList dependency}\""
  | unreadableArguments text => s!"Unable to parse named arguments {text.quoted}"
  | noCallable callee => s!"No function/struct \"{String.ofList callee}\" found"
  | noOverload callee names =>
    s!"No overload of {String.ofList callee} with parameter names " ++
    ",".intercalate (names.map String.ofList)
  | unknownPlugin id available =>
    s!"Unknown plugin: {String.ofList id}. Available: " ++
    ", ".intercalate (available.map String.ofList)
  | notText => "The file does not hold text"
  | notAFolder path => s!"[Errno 20] Not a directory: {path.quoted}"
  | isAFolder path => s!"[Errno 21] Is a directory: {path.quoted}"
  | noFile path => s!"[Errno 2] No such file or directory: {path.quoted}"
  | pathTooLong path => s!"[Errno 36] File name too long: {path.quoted}"
  | nullInPath => "embedded null byte"
  | impossibleValue i => String.ofList i.message
  | reported _ message => String.ofList message

end Cause

/-- A cause, and the path of the module in which it was found. -/
structure Fault where
  cause : Cause
  path : Option Text := none
deriving DecidableEq

namespace Fault

/-- The fault in words, with its place if that is known. -/
def text (f : Fault) : String :=
  match f.path with
  | none | some [] => f.cause.message
  | some path => s!"{f.cause.message} in module {String.ofList path}"

/-- Places a fault in a module.  A mutual dependency belongs to two modules and keeps its place;
so does what is not a fault of the linker. -/
def within (path : Text) (f : Fault) : Fault :=
  match f.cause.family with
  | none | some .cyclic => f
  | some _ => { f with path := some path }

end Fault

/-- A fault whose place is not known. -/
def Cause.fault (c : Cause) : Fault := { cause := c }

/-- A fault in a module. -/
def Cause.inModule (c : Cause) (path : Text) : Fault := { cause := c, path := some path }

end ShaderLink
