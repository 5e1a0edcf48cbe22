import ShaderLink.Proofs.Compiling
import ShaderLink.Proofs.Pipelines

/-!
# What compiling leaves alone

With plugins or without, compiling leaves all libraries that are compiled as they are, and all
modules but those that a library may still bind: its leaves, as long as it is not compiled
(`Store.Frame`).  So a module that is a leaf of no other library is safe once its library is
compiled (`Frame.module_of_unshared`).  `Store.Regular` says what is true of every store in which
libraries are compiled; only changes of scopes and of what is compiled could break it
(`Regular.of_spares`).
-/

namespace ShaderLink

open LinkM

/-! ## Leaves -/

/-- The library as it is before anything in it is compiled. -/
def Library.bare (l : Library) : Library := { l with isCompiled := false, modules := [] }

/-- The leaves of a definition, each with the keys on the way to it. -/
def Definition.leaves : Definition → List (List Text × Source)
  | .tree t => t.leaves
  | .unusable => []

/-- The leaves of a library, each with its path. -/
def Library.leaves (l : Library) : List (Text × Source) :=
  l.definition.leaves.map fun p => (Tree.pathOf l.name p.1, p.2)

theorem Library.leaves_of_bare {l l' : Library} (h : l'.bare = l.bare) : l'.leaves = l.leaves := by
  show l'.bare.leaves = l.bare.leaves
  rw [h]

/-- The libraries that are given in a scope itself. -/
def Owner.table : Owner → Table Text LibraryId
  | .alone libraries _ => libraries
  | .library _ | .registry => []

namespace Store

/-- The module is a leaf of the library. -/
def IsLeaf (s : Store) (id : LibraryId) (i : ModuleId) : Prop :=
  ∃ path, (path, Source.built i) ∈ (s.library id).leaves

/-- The module is a leaf of a library that is not compiled, and may be bound when it is. -/
def IsFree (s : Store) (i : ModuleId) : Prop := ∃ id, ¬ s.IsCompiled id ∧ s.IsLeaf id i

/-- No other library has the module as a leaf. -/
def Unshared (s : Store) (id : LibraryId) (i : ModuleId) : Prop :=
  ∀ id', id' ≠ id → ¬ s.IsLeaf id' i

/-- All libraries in the table exist. -/
def InRange (s : Store) (t : Table Text LibraryId) : Prop := ∀ p ∈ t, p.2 < s.libraries.size

/-- The scope has a number that is in use, and the libraries in it exist. -/
def InScope (s : Store) (scope : Scope) : Prop :=
  scope.serial < s.nextSerial ∧ s.InRange scope.owner.table

/-! ## Frames -/

/-- The libraries in `L` and the modules in `M` stay as they are.  Of the others, libraries change
only in that they are compiled or not, and modules stay at their paths with their sources. -/
structure Spares (L : LibraryId → Prop) (M : ModuleId → Prop) (s s' : Store) : Prop where
  size : s'.libraries.size = s.libraries.size
  bare : ∀ id, (s'.library id).bare = (s.library id).bare
  registry : s'.registry = s.registry
  libraries : ∀ id, L id → s'.library id = s.library id
  modules_size : s.modules.size ≤ s'.modules.size
  nextSerial : s.nextSerial ≤ s'.nextSerial
  path : ∀ i < s.modules.size, (s'.module i).path = (s.module i).path
  source : ∀ i < s.modules.size, (s'.module i).source = (s.module i).source
  modules : ∀ i < s.modules.size, M i → s'.module i = s.module i
  calls : s.calls <+: s'.calls

section Spares

variable {L L' : LibraryId → Prop} {M M' : ModuleId → Prop} {s s' s'' : Store} {id : LibraryId}
  {i : ModuleId} {calls : Calls}

namespace Spares

theorem refl (L : LibraryId → Prop) (M : ModuleId → Prop) (s : Store) : Spares L M s s :=
  ⟨rfl, fun _ => rfl, rfl, fun _ _ => rfl, le_rfl, le_rfl, fun _ _ => rfl, fun _ _ => rfl,
    fun _ _ _ => rfl, List.prefix_rfl⟩

theorem trans (h : Spares L M s s') (h' : Spares L M s' s'') : Spares L M s s'' where
  size := h'.size.trans h.size
  bare id := (h'.bare id).trans (h.bare id)
  registry := h'.registry.trans h.registry
  libraries id hid := (h'.libraries id hid).trans (h.libraries id hid)
  modules_size := h.modules_size.trans h'.modules_size
  nextSerial := h.nextSerial.trans h'.nextSerial
  path i hi := (h'.path i (hi.trans_le h.modules_size)).trans (h.path i hi)
  source i hi := (h'.source i (hi.trans_le h.modules_size)).trans (h.source i hi)
  modules i hi hM := (h'.modules i (hi.trans_le h.modules_size) hM).trans (h.modules i hi hM)
  calls := h.calls.trans h'.calls

theorem mono (h : Spares L M s s') (hL : ∀ id, L' id → L id)
    (hM : ∀ i < s.modules.size, M' i → M i) : Spares L' M' s s' :=
  { h with
    libraries := fun id hid => h.libraries id (hL id hid)
    modules := fun i hi hMi => h.modules i hi (hM i hi hMi) }

theorem leaves (h : Spares L M s s') (id : LibraryId) :
    (s'.library id).leaves = (s.library id).leaves :=
  Library.leaves_of_bare (h.bare id)

theorem plugins (h : Spares L M s s') (id : LibraryId) :
    (s'.library id).plugins = (s.library id).plugins := by
  show (s'.library id).bare.plugins = (s.library id).bare.plugins
  rw [h.bare]

theorem dependencies (h : Spares L M s s') (id : LibraryId) :
    (s'.library id).dependencies = (s.library id).dependencies := by
  show (s'.library id).bare.dependencies = (s.library id).bare.dependencies
  rw [h.bare]

theorem isLeaf (h : Spares L M s s') : s'.IsLeaf = s.IsLeaf := by
  funext id i
  rw [IsLeaf, IsLeaf, h.leaves]

theorem unshared (h : Spares L M s s') : s'.Unshared = s.Unshared := by
  funext id i
  rw [Unshared, Unshared, h.isLeaf]

theorem inRange (h : Spares L M s s') : s'.InRange = s.InRange := by
  funext t
  rw [InRange, InRange, h.size]

theorem inScope (h : Spares L M s s') {scope : Scope} (hscope : s.InScope scope) :
    s'.InScope scope := by
  refine ⟨hscope.1.trans_le h.nextSerial, ?_⟩
  rw [h.inRange]
  exact hscope.2

end Spares

theorem Alters.library (h : Alters i calls s s') (id : LibraryId) :
    s'.library id = s.library id := by
  rw [Store.library, Store.library, h.libraries]

theorem Alters.spares (h : Alters i calls s s') (hi : ¬ M i) : Spares L M s s' where
  size := by rw [h.libraries]
  bare id := by rw [h.library]
  registry := h.registry
  libraries id _ := h.library id
  modules_size := h.modules_size.ge
  nextSerial := h.nextSerial
  path j _ := by
    by_cases hj : j = i
    · rw [hj, h.path]
    · rw [h.others j hj]
  source j _ := by
    by_cases hj : j = i
    · rw [hj, h.source]
    · rw [h.others j hj]
  modules j _ hj := h.others j fun hji => hi (hji ▸ hj)
  calls := h.calls_eq ▸ List.prefix_append _ _

/-- What is done to one of the other modules, or to a new one. -/
theorem Spares.alters (h : Spares L M s s') (h' : Alters i calls s' s'')
    (hi : M i → s.modules.size ≤ i) : Spares L M s s'' := by
  let M' : ModuleId → Prop := fun j => M j ∧ j < s.modules.size
  have h₁ : Spares L M' s s' := h.mono (fun _ hid => hid) fun _ _ hj => hj.1
  have h₂ : Spares L M' s' s'' := h'.spares fun hM => (hi hM.1).not_gt hM.2
  exact (h₁.trans h₂).mono (fun _ hid => hid) fun _ hj hM => ⟨hM, hj⟩

theorem Called.spares (h : Called calls s s') : Spares L M s s' := by
  have hlibrary := h.toQuiet.library
  have hmodule := h.toQuiet.module
  refine ⟨by rw [h.libraries], ?_, h.registry, ?_, h.modules ▸ le_rfl, h.nextSerial, ?_, ?_, ?_,
    h.calls_eq ▸ List.prefix_append _ _⟩
  all_goals simp only [hlibrary, hmodule, implies_true]

theorem spares_push (m : Module) : Spares L M s { s with modules := s.modules.push m } := by
  have hmodule : ∀ i < s.modules.size,
      ({ s with modules := s.modules.push m } : Store).module i = s.module i := by
    intro i hi
    rw [module_push, if_neg hi.ne]
  refine ⟨rfl, fun _ => rfl, rfl, fun _ _ => rfl, by simp, le_rfl, fun i hi => ?_, fun i hi => ?_,
    fun i hi _ => hmodule i hi, List.prefix_rfl⟩
  · rw [hmodule i hi]
  · rw [hmodule i hi]

theorem spares_changeLibrary {f : Library → Library} (hid : ¬ L id)
    (hbare : (f (s.library id)).bare = (s.library id).bare) :
    Spares L M s { s with libraries := s.libraries.modify id f } := by
  refine ⟨by simp, fun j => ?_, rfl, fun j hj => ?_, le_rfl, le_rfl, fun _ _ => rfl,
    fun _ _ => rfl, fun _ _ _ => rfl, List.prefix_rfl⟩
  · rw [library_modify]
    split
    · rename_i h
      rw [h.1, hbare]
    · rfl
  · rw [library_modify, if_neg]
    rintro ⟨rfl, -⟩
    exact hid hj

/-- What compiling leaves alone: the libraries that are compiled, and the modules that are not
free. -/
abbrev Frame (s s' : Store) : Prop := Spares s.IsCompiled (fun i => ¬ s.IsFree i) s s'

/-- What is done for one library before it is compiled. -/
theorem Spares.frame (h : Spares (fun j => j ≠ id) (fun j => ¬ s.IsLeaf id j) s s')
    (hid : ¬ s.IsCompiled id) : Frame s s' := by
  refine h.mono (fun j hj => ?_) fun i _ hfree hleaf => hfree ⟨id, hid, hleaf⟩
  rintro rfl
  exact hid hj

namespace Frame

theorem isCompiled (h : Frame s s') (hid : s.IsCompiled id) : s'.IsCompiled id := by
  rw [IsCompiled, h.libraries id hid]
  exact hid

theorem isFree (h : Frame s s') (hi : s'.IsFree i) : s.IsFree i := by
  obtain ⟨id, hid, hleaf⟩ := hi
  exact ⟨id, fun hc => hid (h.isCompiled hc), h.isLeaf ▸ hleaf⟩

protected theorem trans (h : Frame s s') (h' : Frame s' s'') : Frame s s'' :=
  Spares.trans h (h'.mono (fun _ hid => h.isCompiled hid) fun _ _ hi hfree => hi (h.isFree hfree))

/-- A module of a compiled library is kept, if it is a leaf of no other one. -/
theorem module_of_unshared (h : Frame s s') (hid : s.IsCompiled id) (hi : i < s.modules.size)
    (hunshared : s.Unshared id i) : s'.module i = s.module i := by
  refine h.modules i hi ?_
  rintro ⟨id', hid', hleaf⟩
  refine hunshared id' ?_ hleaf
  rintro rfl
  exact hid' hid

end Frame

end Spares

/-! ## Regular stores -/

/-- What is true of a store in which libraries are compiled: libraries that are not compiled have no
modules, all that is referred to exists, and the leaves of a library have different paths. -/
structure Regular (s : Store) : Prop where
  idle : ∀ id, ¬ s.IsCompiled id → (s.library id).modules = []
  scopes : ∀ i < s.modules.size, s.InScope (s.module i).scope
  built : ∀ id i, s.IsLeaf id i → i < s.modules.size
  distinct : ∀ id, ((s.library id).leaves.map Prod.fst).Nodup
  dependencies : ∀ id, s.InRange (s.library id).dependencies
  registered : s.InRange s.registry.libraries

namespace Regular

variable {L : LibraryId → Prop} {M : ModuleId → Prop} {s s' : Store} {i : ModuleId} {calls : Calls}

theorem of_spares (hs : s.Regular) (h : Spares L M s s')
    (hidle : ∀ id, ¬ s'.IsCompiled id → (s'.library id).modules = [])
    (hscopes : ∀ i < s'.modules.size, s'.InScope (s'.module i).scope) : s'.Regular where
  idle := hidle
  scopes := hscopes
  built id i hi := (hs.built id i (h.isLeaf ▸ hi)).trans_le h.modules_size
  distinct id := by
    rw [h.leaves]
    exact hs.distinct id
  dependencies id := by
    rw [h.inRange, h.dependencies]
    exact hs.dependencies id
  registered := by
    rw [h.inRange, h.registry]
    exact hs.registered

theorem of_alters (hs : s.Regular) (h : Alters i calls s s')
    (hscope : s'.InScope (s'.module i).scope) : s'.Regular := by
  have hspares : Spares (fun _ => True) (fun j => j ≠ i) s s' := h.spares (by simp)
  refine hs.of_spares hspares (fun id => ?_) fun j hj => ?_
  · rw [IsCompiled, h.library]
    exact hs.idle id
  · by_cases hji : j = i
    · rw [hji]
      exact hscope
    · rw [h.others j hji]
      exact hspares.inScope (hs.scopes j (h.modules_size ▸ hj))

theorem of_called (hs : s.Regular) (h : Called calls s s') : s'.Regular := by
  have hspares : Spares (fun _ => True) (fun _ => True) s s' := h.spares
  refine hs.of_spares hspares (fun id => ?_) fun j hj => ?_
  · rw [IsCompiled, h.toQuiet.library]
    exact hs.idle id
  · rw [h.toQuiet.module]
    exact hspares.inScope (hs.scopes j (h.modules ▸ hj))

theorem push (hs : s.Regular) {m : Module} (hm : s.InScope m.scope) :
    Regular { s with modules := s.modules.push m } := by
  have hspares : Spares (fun _ => True) (fun _ => True) s { s with modules := s.modules.push m } :=
    spares_push m
  refine hs.of_spares hspares hs.idle fun j hj => ?_
  rw [module_push]
  split
  · exact hspares.inScope hm
  · rename_i hne
    rw [Array.size_push] at hj
    exact hspares.inScope (hs.scopes j (Nat.lt_of_le_of_ne (Nat.lt_succ_iff.1 hj) hne))

theorem changeLibrary (hs : s.Regular) {id : LibraryId} {f : Library → Library}
    (hbare : (f (s.library id)).bare = (s.library id).bare)
    (hidle : id < s.libraries.size → ¬ (f (s.library id)).isCompiled = true →
      (f (s.library id)).modules = []) :
    Regular { s with libraries := s.libraries.modify id f } := by
  have hspares : Spares (fun j => j ≠ id) (fun _ => True) s
      { s with libraries := s.libraries.modify id f } := spares_changeLibrary (by simp) hbare
  refine hs.of_spares hspares (fun j hj => ?_) fun j hj => hspares.inScope (hs.scopes j hj)
  rw [IsCompiled, library_modify] at hj
  rw [library_modify]
  split
  · rename_i h
    rw [if_pos h, h.1] at hj
    rw [h.1]
    exact hidle (h.1 ▸ h.2) hj
  · rename_i h
    rw [if_neg h] at hj
    exact hs.idle j hj

theorem librariesOf (hs : s.Regular) {scope : Scope} (h : s.InScope scope) :
    s.InRange (s.librariesOf scope) := by
  unfold Store.librariesOf
  cases ho : scope.owner with
  | alone libraries plugins =>
    have htable := h.2
    rw [ho] at htable
    exact htable
  | library id => exact hs.dependencies id
  | registry => exact hs.registered

end Regular

end Store

end ShaderLink
