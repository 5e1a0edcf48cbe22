import ShaderLink.Declaration
import ShaderLink.Notice
import ShaderLink.Table

/-!
# Renaming

When declarations with different ids share a name, each of these ids gets a name of its own: the
old one with a number behind it.
-/

namespace ShaderLink.Renaming

/-- The ids that are declared under a name, in order. -/
def idsOf (ds : List Declaration) (name : Text) : List Text :=
  ((ds.filter (·.name == name)).map (·.id)).eraseDups

/-- The names of declarations, in order. -/
def names (ds : List Declaration) : List Text := (ds.map (·.name)).eraseDups

/-- A name with a number behind it and an underscore in between. -/
def numbered (name : Text) (i : Nat) : Text :=
  let separator := if name.getLast? = some '_' then [] else ['_']
  name ++ separator ++ Nat.toDigits 10 i

/-- The new names of the ids that share a name, if there are several. -/
def renamesOf (ds : List Declaration) (name : Text) : List (Text × Text) :=
  let ids := idsOf ds name
  if ids.length < 2 then [] else ids.zipIdx.map fun p => (p.1, numbered name p.2)

/-- The new name of every id that needs one. -/
def ofDeclarations (ds : List Declaration) : Table Text Text :=
  Table.ofList ((names ds).flatMap (renamesOf ds))

/-- A warning for each new name that is also a declared one. -/
def warnings (ds : List Declaration) : List Notice :=
  ((names ds).flatMap (renamesOf ds)).filterMap fun p =>
    (idsOf ds p.2).head?.map fun owner => .nameTaken p.1 p.2 owner

end ShaderLink.Renaming
