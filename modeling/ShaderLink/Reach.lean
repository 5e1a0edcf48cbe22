import ShaderLink.Store

/-!
# Reach

Everything that some declarations need, directly or through others.  The search goes through a
store as it is; when it needs a library that is not compiled it stops, and it can go on from there
once that has changed.  Each id is looked up once, but an import is checked against the exports of
its module each time.
-/

namespace ShaderLink

/-! ## Looking up names -/

namespace Module

/-- An import of a name by something with the id `user` is allowed; an internal name is for its own
library. -/
def checkExport (m : Module) (name user : Text) : Except Fault Unit :=
  match m.exports.find? (·.name == name) with
  | none => .error (Cause.noExport name m.path).fault
  | some e =>
    if e.isInternal then do
      let origin ← libraryOf user
      let own ← libraryOf m.path
      if origin ≠ own then throw (Cause.internalExport name own user).fault
    else .ok ()

/-- All declarations of a name, for a use of the given origin. -/
def lookup (m : Module) (name : Text) (origin : Origin) (user : Text) :
    Except Fault (List Declaration) := do
  if origin = .imported then m.checkExport name user
  match m.declarations.filter (·.name == name) with
  | [] => throw (Cause.noEntity name m.path).fault
  | d :: ds => return d :: ds

end Module

/-- All declarations of a name in a module of a compiled library. -/
def Store.lookup (s : Store) (l : Library) (path name : Text) (origin : Origin) (user : Text) :
    Except Fault (List Declaration) :=
  match l.modules.get? path with
  | none => .error (Cause.noModule path l.name).fault
  | some id => (s.module id).lookup name origin user

/-! ## The search -/

/-- A reference that has to be followed: whose it is, and what can be imported there. -/
structure Pending where
  reference : Reference
  user : Text
  libraries : Table Text LibraryId

/-- The library that a reference leads to. -/
def Pending.library (p : Pending) : Except Fault LibraryId := do
  let name ← libraryOf p.reference.path
  match p.libraries.get? name with
  | none => throw (Cause.noLibrary name p.reference.id p.user).fault
  | some id => return id

/-- The state of a search: what was found, the ids that were reached, and the references to follow,
the next one first. -/
structure Search where
  found : List Declaration
  seen : List Text
  pending : List Pending

namespace Search

/-- The references of declarations, the last first. -/
def references (ds : List Declaration) (libraries : Table Text LibraryId) : List Pending :=
  (ds.flatMap fun d => d.references.map fun r => ⟨r, d.id, libraries⟩).reverse

/-- The beginning of a search for what the roots need. -/
def start (roots : List Declaration) (libraries : Table Text LibraryId) : Search where
  found := []
  seen := roots.map (·.id)
  pending := references roots libraries

/-- Adds a declaration, unless it was found before. -/
def addFound (found : List Declaration) (d : Declaration) : List Declaration :=
  if found.any (·.serial == d.serial) then found else found ++ [d]

/-- What becomes of a search. -/
inductive Result where
  | finished (found : List Declaration)
  | failed (fault : Fault)
  /-- A library has to be compiled first. -/
  | needs (library : LibraryId) (s : Search)
  /-- There is more to do. -/
  | moved (s : Search)

/-- Follows one reference. -/
def step (store : Store) (s : Search) : Result :=
  match s.pending with
  | [] => .finished s.found
  | p :: rest =>
    let isKnown := s.seen.contains p.reference.id
    if isKnown && p.reference.origin == .ambient then .moved { s with pending := rest }
    else
      match p.library with
      | .error fault => .failed fault
      | .ok id =>
        let l := store.library id
        if !l.isCompiled then .needs id s
        else
          match store.lookup l p.reference.path p.reference.name p.reference.origin p.user with
          | .error fault => .failed fault
          | .ok ds =>
            if isKnown then .moved { s with pending := rest }
            else
              .moved
                { found := ds.foldl addFound s.found
                  seen := p.reference.id :: s.seen
                  pending := references ds l.dependencies ++ rest }

/-- Follows references, at most `fuel` of them. -/
def run (store : Store) : (fuel : Nat) → Search → Result
  | 0, s => .moved s
  | fuel + 1, s =>
    match s.step store with
    | .moved s => run store fuel s
    | result => result

/-- All references in a store. -/
def referenceCount (store : Store) : Nat :=
  (store.modules.toList.flatMap fun m => m.declarations.flatMap (·.references)).length

/-- More than the number of steps that a search can take: each id is followed up once, and adds no
more references than there are. -/
def bound (store : Store) (s : Search) : Nat :=
  let n := referenceCount store
  (s.pending.length + n + 1) * (n + 1)

end Search

/-- A search that takes more steps than there can be. -/
def Cause.endless : Cause := .reported .invariant "Search does not end".toList

/-- Searches, and compiles the libraries that are needed on the way, at most `fuel` of them. -/
def explore (compile : LibraryId → LinkM Unit) : (fuel : Nat) → Search → LinkM (List Declaration)
  | 0, _ => throw Cause.endless.fault
  | fuel + 1, s => do
    let store ← get
    match s.run store (s.bound store) with
    | .finished found => return found
    | .failed fault => throw fault
    | .moved _ => throw Cause.endless.fault
    | .needs id s => do
      compile id
      explore compile fuel s

/-- Everything that the roots need, in the order in which it was found.  Each library is compiled at
most once on the way. -/
def reachWith (compile : LibraryId → LinkM Unit) (roots : List Declaration)
    (libraries : Table Text LibraryId) : LinkM (List Declaration) := do
  explore compile ((← get).libraries.size + 1) (Search.start roots libraries)

end ShaderLink
