import ShaderLink.Folder

/-!
# Manifests

The manifest of a library's folder tells the name of the library and the names of the libraries it
depends on.  Without one, or where it says nothing, the library has the name of its folder and
depends on nothing.  How the file of a manifest is read is left to a reader (`Manifest.Reader`), which
makes a value of it; what the value says is told here.
-/

namespace ShaderLink

/-- What a manifest says. -/
structure Manifest where
  name : Text
  dependencies : List Text := []
deriving DecidableEq

namespace Manifest

/-! ## Readers -/

/-- A value in a manifest.  Of one that is neither a text nor a list nor a mapping it only counts
whether it is as good as none. -/
inductive Value where
  | text (t : Text)
  | list (vs : List Value)
  | mapping (ps : List (Value × Value))
  | other (isFalsy : Bool)

namespace Value

/-- Nothing, false, zero, and what is empty. -/
def isFalsy : Value → Bool
  | text t => t.isEmpty
  | list vs => vs.isEmpty
  | mapping ps => ps.isEmpty
  | other b => b

/-- The text of a value that is one. -/
def text? : Value → Option Text
  | text t => some t
  | _ => none

/-- The value under a key of a mapping; the last entry counts. -/
def get? (ps : List (Value × Value)) (key : Text) : Option Value :=
  (ps.reverse.find? fun p => p.1.text? = some key).map Prod.snd

end Value

/-- Why a file has no value. -/
inductive Problem where
  /-- It does not keep to the notation, for this reason. -/
  | malformed (reason : Text)
  /-- It names something that does not exist. -/
  | impossible (i : Impossible)
  /-- Its bytes do not stand for characters. -/
  | notText

/-- A way to read the files of manifests. -/
class Reader where
  value : File → Except Problem Value

/-! ## Reading -/

/-- The name of the file. -/
def fileName : Text := "library.yaml".toList

/-- The name in a mapping, which must be a text that is not empty. -/
def nameIn (file default : Text) (ps : List (Value × Value)) : Except Fault Text :=
  match Value.get? ps "name".toList with
  | none => if default.isEmpty then invalid else .ok default
  | some v =>
    match v.text? with
    | some (c :: t) => .ok (c :: t)
    | _ => invalid
where
  /-- The name cannot be used. -/
  invalid : Except Fault Text := .error (Cause.invalidManifestName file).fault

/-- The dependencies in a mapping, which must be a list of texts if there are any. -/
def dependenciesIn (file : Text) (ps : List (Value × Value)) : Except Fault (List Text) :=
  let fault := (Cause.invalidManifestDependencies file).fault
  match Value.get? ps "dependencies".toList with
  | none => .ok []
  | some v =>
    if v.isFalsy then .ok []
    else
      match v with
      | .list vs =>
        match vs.mapM Value.text? with
        | some names => .ok names
        | none => .error fault
      | _ => .error fault

/-- What a problem with a manifest amounts to; `file` is its place in messages. -/
def problemCause (file : Text) : Problem → Cause
  | .malformed reason => .invalidManifest file reason
  | .impossible i => .impossibleValue i
  | .notText => .notText

/-- The manifest that a value describes; `default` is the name of the folder. -/
def ofValue (file default : Text) (v : Value) : Except Fault Manifest :=
  match if v.isFalsy then .mapping [] else v with
  | .mapping ps => do
    let name ← nameIn file default ps
    return { name, dependencies := ← dependenciesIn file ps }
  | _ => .error (Cause.manifestNotMapping file).fault

section Reader

variable [Reader]

/-- Reads a manifest from a file. -/
def ofFile (file default : Text) (f : File) : Except Fault Manifest := do
  let v ← (Reader.value f).mapError fun p => (problemCause file p).fault
  ofValue file default v

/-- Reads the manifest of a library's folder. -/
def read (root : Folder) (folder : Route) : Except Fault Manifest := do
  let route := folder ++ [fileName]
  match ← root.find? route with
  | some (.file f) => ofFile route.text folder.name f
  | _ => return { name := folder.name }

end Reader

end Manifest

end ShaderLink
