import ShaderLink.Path

/-!
# Trees of named entries

A tree is a list of entries, each with a key and either a leaf or a tree of its own.  The definition
of a library is such a tree, and so is a folder of files.  A leaf belongs to the place named by the
keys on the way to it; the key `@index` names the place it is found at.
-/

namespace ShaderLink

/-- Named entries in order. -/
inductive Tree (α : Type) where
  | nil
  | leaf (key : Text) (value : α) (rest : Tree α)
  | branch (key : Text) (inner : Tree α) (rest : Tree α)
deriving DecidableEq, Repr

namespace Tree

/-- The key that adds nothing to a path. -/
def indexKey : Text := "@index".toList

/-- The path of an entry below a path. -/
def child (path key : Text) : Text := if key = indexKey then path else idOf path key

/-- The leaves in order, each with the keys on the way to it. -/
def leaves {α : Type} : Tree α → List (List Text × α)
  | nil => []
  | leaf key a rest => ([key], a) :: leaves rest
  | branch key inner rest => (leaves inner).map (fun p => (key :: p.1, p.2)) ++ leaves rest

/-- The path of a leaf below a path. -/
def pathOf (path : Text) (keys : List Text) : Text := keys.foldl child path

/-- The tree has no entries. -/
def isEmpty {α : Type} : Tree α → Bool
  | nil => true
  | _ => false

/-- Applies a function to every leaf. -/
def map {α β : Type} (f : α → β) : Tree α → Tree β
  | nil => nil
  | leaf key a rest => leaf key (f a) (map f rest)
  | branch key inner rest => branch key (map f inner) (map f rest)

/-- Runs an action on every leaf in order, with the path of the leaf. -/
def forLeaves {m : Type → Type} [Monad m] {α : Type} (act : Text → α → m Unit) :
    Text → Tree α → m Unit
  | _, nil => pure ()
  | path, leaf key a rest => do
    act (child path key) a
    forLeaves act path rest
  | path, branch key inner rest => do
    forLeaves act (child path key) inner
    forLeaves act path rest

end Tree

end ShaderLink
