import ShaderLink.Plugin.NamedArguments
import ShaderLink.Plugin.Namespaces

/-!
# The plugins that come with the linker

They are known by their ids.
-/

namespace ShaderLink.Plugin

/-- The plugins by id, each with the serial number still open. -/
def catalogue : List (Text × (Nat → Plugin)) :=
  [("named-arguments".toList, NamedArguments.plugin),
   ("namespaced-imports".toList, Namespaces.plugin)]

/-- The plugin of an id. -/
def ofId (id : Text) (serial : Nat) : Except Fault Plugin :=
  match catalogue.lookup id with
  | some make => .ok (make serial)
  | none => .error (Cause.unknownPlugin id (catalogue.map Prod.fst)).fault

end ShaderLink.Plugin
