import ShaderLink.Path
import ShaderLink.Text.WholeWord

/-!
# Imports, exports and references

What a module asks for, what it offers, and which of the names in sight a declaration mentions.
-/

namespace ShaderLink

/-- The alias, unless there is none or an empty one. -/
def nameOrAlias (name : Text) : Option Text → Text
  | none | some [] => name
  | some other => other

/-- A request for a name of another module. -/
structure Import where
  name : Text
  path : Text
  aliasName : Option Text := none
deriving DecidableEq

namespace Import

/-- The id of what is asked for. -/
def id (i : Import) : Text := idOf i.path i.name

/-- The name under which it is used here. -/
def localName (i : Import) : Text := nameOrAlias i.name i.aliasName

end Import

/-- A name that a module offers; an internal one only to its own library. -/
structure Export where
  name : Text
  isInternal : Bool := false
deriving DecidableEq

/-- Where a name in sight comes from: an import, or the module itself. -/
inductive Origin where
  | imported
  | ambient
deriving DecidableEq, Repr

/-- A use of a name by a declaration. -/
structure Reference where
  name : Text
  path : Text
  origin : Origin
  aliasName : Option Text := none
deriving DecidableEq

namespace Reference

/-- The id of what is used. -/
def id (r : Reference) : Text := idOf r.path r.name

/-- The name under which it is used. -/
def localName (r : Reference) : Text := nameOrAlias r.name r.aliasName

/-- The text uses the name. -/
def isMentionedIn (r : Reference) (t : Text) : Bool := t.containsWord r.localName

end Reference

end ShaderLink
