import ShaderLink.Manifest
import ShaderLink.Yaml.Stream
import ShaderLink.Yaml.Value

/-!
# Manifests in YAML

The program reads manifests as YAML texts, piece by piece.
-/

namespace ShaderLink.Yaml

/-- What a scalar is in a manifest. -/
def Scalar.manifestValue : Scalar → Manifest.Value
  | text t => .text t
  | null | bool false | number true => .other true
  | bool true | number false | date _ | merge | reserved | impossible _ => .other false

namespace Value

mutual

/-- What a value is in a manifest. -/
def manifestValue : Value → Manifest.Value
  | scalar s => s.manifestValue
  | list vs => .list (manifestValues vs)
  | mapping ps => .mapping (manifestEntries ps)
  | unmergeable => .other false

def manifestValues : List Value → List Manifest.Value
  | [] => []
  | v :: vs => v.manifestValue :: manifestValues vs

def manifestEntries : List (Value × Value) → List (Manifest.Value × Manifest.Value)
  | [] => []
  | (k, v) :: ps => (k.manifestValue, v.manifestValue) :: manifestEntries ps

end

end Value

/-- What a problem is in a manifest. -/
def Problem.manifestProblem : Problem → Manifest.Problem
  | malformed => .malformed "this is not YAML".toList
  | impossible i => .impossible { message := i.message.toList, isOverflow := i.isOverflow }
  | notText => .notText

instance : Manifest.Reader where
  value f :=
    let (pieces, isCut) := Stream.piecesOf f
    match read (.ofPieces pieces isCut) with
    | .ok v => .ok v.manifestValue
    | .error p => .error p.manifestProblem

end ShaderLink.Yaml
