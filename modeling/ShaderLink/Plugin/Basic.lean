import ShaderLink.Declaration
import ShaderLink.Notice

/-!
# Plugins

A plugin may change a module in three phases: its text before it is read, its declarations once
everything it needs is known, and at last the definition of each declaration.  In the second phase
it sees the module's surroundings: its own declarations and what its imports brought in.
-/

namespace ShaderLink

/-- A declaration, and the name under which a module sees it. -/
structure Sighting where
  declaration : Declaration
  localName : Text
  isImported : Bool
deriving DecidableEq

/-- The declaration as it is once some were edited in place; the serial number tells which it is. -/
def Declaration.latest (edited : List Declaration) (d : Declaration) : Declaration :=
  (edited.find? (·.serial == d.serial)).getD d

/-- What a plugin sees of the module it works on. -/
structure Surroundings where
  path : Text
  imports : List Import
  locals : List Sighting
  imported : List Sighting
  /-- Everything that was found for the module in libraries. -/
  found : List Declaration
deriving DecidableEq

namespace Surroundings

/-- The surroundings of a module with its declarations, its imports, and what was found for it in
libraries. -/
def of (path : Text) (declarations : List Declaration) (imports : List Import)
    (found : List Declaration) : Surroundings where
  path := path
  imports := imports
  locals := declarations.map fun d => ⟨d, d.name, false⟩
  imported := imports.flatMap fun i =>
    (found.filter (·.id == i.id)).map fun d => ⟨d, i.localName, true⟩
  found := found

/-- All declarations in sight. -/
def everything (s : Surroundings) : List Declaration := s.locals.map (·.declaration) ++ s.found

/-- The same surroundings, showing what was edited in place. -/
def refresh (edited : List Declaration) (s : Surroundings) : Surroundings :=
  let latest (x : Sighting) : Sighting := { x with declaration := x.declaration.latest edited }
  { s with
    locals := s.locals.map latest
    imported := s.imported.map latest
    found := s.found.map (·.latest edited) }

/-- The surroundings once other declarations have taken the place of the module's own. -/
def replace (declarations : List Declaration) (s : Surroundings) : Surroundings :=
  .of s.path declarations s.imports s.found

/-- What a name means in the module; its own declarations hide the imported ones. -/
def byName (s : Surroundings) (name : Text) : List Sighting :=
  match s.locals.filter (·.localName == name) with
  | [] => s.imported.filter (·.localName == name)
  | own => own

/-- The declarations in sight with an id. -/
def byId (s : Surroundings) (id : Text) : List Declaration := s.everything.filter (·.id == id)

end Surroundings

/-- What the second phase did: the declarations it was given, as changed in place, and the list
that takes their place, if any.  What was changed before a fault stays changed. -/
structure Transformed where
  edited : List Declaration
  replacement : Except Fault (Option (List Declaration)) := .ok none

/-- An extension that changes modules.  The serial number tells apart plugins with one id. -/
structure Plugin where
  id : Text
  serial : Nat := 0
  preprocess : (isShader : Bool) → Text → Except Fault Text × List Notice := fun _ t => (.ok t, [])
  transform : (isShader : Bool) → Surroundings → List Declaration → Transformed :=
    fun _ _ ds => { edited := ds }
  postprocess : (isShader : Bool) → Surroundings → Declaration → Text → Except Fault Text :=
    fun _ _ _ t => .ok t

/-- A call of a plugin, with what it was given. -/
inductive Call where
  | preprocess (isShader : Bool) (code : Text)
  | transform (isShader : Bool) (keys : List Text) (surroundings : Surroundings)
  | postprocess (isShader : Bool) (key : Text) (definition : Text)

end ShaderLink
