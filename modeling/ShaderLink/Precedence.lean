import ShaderLink.Declaration
import ShaderLink.Table

/-!
# Precedence

Which declarations have to stand before which, and an order that respects this.  Two declarations
of one module may depend on each other; then the one that is declared earlier comes first.  Two
declarations of different modules may not.
-/

namespace ShaderLink

/-- Nodes in order, each with those that have to stand before it. -/
abbrev Precedence := Table Text (List Text)

namespace Precedence

/-! ## Building -/

/-- What the use of `c` by `d` means for their order: the key that has to come first, if any. -/
def required (d c : Declaration) : Except Fault (Option Text) :=
  if c.key = d.key then .ok none
  else if c.uses d.id then
    if c.path ≠ d.path then .error (Cause.mutualDependency c.id d.id).fault
    else if c.index > d.index then .ok none
    else .ok (some c.key)
  else .ok (some c.key)

/-- Everything among `all` that a declaration uses, use by use; all overloads are used at once. -/
def used (all : List Declaration) (d : Declaration) : List Declaration :=
  d.references.flatMap fun r => all.filter (·.id == r.id)

/-- The keys that have to come before a declaration. -/
def before (all : List Declaration) (d : Declaration) : Except Fault (List Text) := do
  return ((← (used all d).mapM (required d)).filterMap id).eraseDups

/-- Enters more predecessors of a node. -/
def extend (g : Precedence) (node : Text) (keys : List Text) : Precedence :=
  g.insert node (((g.get? node).getD [] ++ keys).eraseDups)

/-- The precedence of declarations that go into one text. -/
def ofDeclarations (ds : List Declaration) : Except Fault Precedence :=
  ds.foldlM (fun g d => do return g.extend d.key (← before ds d)) []

/-! ## Ordering -/

/-- Nodes that are not emitted yet with the predecessors they wait for, nodes that are ready, and
nodes in the order in which they were emitted (the last first). -/
structure Emission where
  waiting : Precedence
  ready : List Text
  emitted : List Text

/-- Strikes an emitted node from a list of predecessors. -/
def strike (node : Text) (p : Text × List Text) : Text × List Text :=
  (p.1, p.2.filter (· != node))

/-- The nodes that waited for this one only. -/
def released (node : Text) (g : Precedence) : List Text :=
  Table.keys (g.filter fun p => p.2.contains node && (strike node p).2.isEmpty)

/-- Emits ready nodes, the first that became ready first, at most `fuel` of them. -/
def emit : (fuel : Nat) → Emission → Emission
  | 0, e => e
  | fuel + 1, e =>
    match e.ready with
    | [] => e
    | node :: ready =>
      emit fuel
        { waiting := e.waiting.map (strike node)
          ready := ready ++ released node e.waiting
          emitted := node :: e.emitted }

/-- Everything that is emitted, and what is left; a node becomes ready at most once. -/
def emitAll (g : Precedence) : Emission :=
  emit g.length
    { waiting := g, ready := Table.keys (g.filter (·.2.isEmpty)), emitted := [] }

/-- The nodes that wait for ever. -/
def stuck (e : Emission) : List Text := Table.keys (e.waiting.filter (!·.2.isEmpty))

/-- The nodes in an order in which each comes after its predecessors. -/
def order (g : Precedence) : Except Fault (List Text) :=
  let e := emitAll g
  match stuck e with
  | [] => .ok e.emitted.reverse
  | k :: ks => .error (Cause.stuck (k :: ks)).fault

/-- The declarations in the order of their keys; those with one key stay together, as given. -/
def arrange (order : List Text) (ds : List Declaration) : List Declaration :=
  order.flatMap fun k => ds.filter (·.key == k)

/-- The declarations, each after all it needs. -/
def sort (ds : List Declaration) : Except Fault (List Declaration) := do
  return arrange (← (← ofDeclarations ds).order) ds

end Precedence

end ShaderLink
