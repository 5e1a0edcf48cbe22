import ShaderLink.Proofs.Requests
import ShaderLink.Proofs.Serials

/-!
# Stages of libraries

Libraries without plugins pass through stages, in which some of them are compiled (`Store.Stage`).
A library that is compiled has a module for each of its leaves, read in its place
(`Store.Populated`), and keeps them while others are compiled (`Store.Extends`).  So it has the same
contents in all stages in which it is compiled: `Stage.contents_eq`.
-/

namespace ShaderLink

open LinkM

/-- The module without what plugins saw of it. -/
def Module.bare (m : Module) : Module := { m with surroundings := none }

theorem Module.path_of_bare {m m' : Module} (h : m'.bare = m.bare) : m'.path = m.path := by
  show m'.bare.path = m.bare.path
  rw [h]

theorem Module.source_of_bare {m m' : Module} (h : m'.bare = m.bare) : m'.source = m.source := by
  show m'.bare.source = m.bare.source
  rw [h]

theorem Module.declarations_of_bare {m m' : Module} (h : m'.bare = m.bare) :
    m'.declarations = m.declarations := by
  show m'.bare.declarations = m.bare.declarations
  rw [h]

theorem Library.name_of_bare {l l' : Library} (h : l'.bare = l.bare) : l'.name = l.name := by
  show l'.bare.name = l.bare.name
  rw [h]

theorem Library.definition_of_bare {l l' : Library} (h : l'.bare = l.bare) :
    l'.definition = l.definition := by
  show l'.bare.definition = l.bare.definition
  rw [h]

theorem Library.dependencies_of_bare {l l' : Library} (h : l'.bare = l.bare) :
    l'.dependencies = l.dependencies := by
  show l'.bare.dependencies = l.bare.dependencies
  rw [h]

theorem Table.get?_map {κ α β : Type} [BEq κ] (f : α → β) (t : Table κ α) (k : κ) :
    Table.get? (t.map fun p => (p.1, f p.2)) k = (t.get? k).map f := by
  induction t with
  | nil => rfl
  | cons p t ih =>
    rw [List.map_cons, get?, get?, List.lookup_cons, List.lookup_cons]
    cases k == p.1
    · exact ih
    · rfl

namespace Store

/-! ## Libraries that are compiled -/

/-- The text that a leaf stands for. -/
def textOf (s : Store) : Source → Option Text
  | .code t => some t
  | .built i => some (s.module i).source
  | .unsupported _ => none

/-- No module is a leaf of two libraries. -/
def Separate (s : Store) : Prop := ∀ id id' i, s.IsLeaf id i → s.IsLeaf id' i → id' = id

/-- The module stands for the leaf, in that library and in no other one. -/
structure Occupies (s₀ s : Store) (id : LibraryId) (leaf : Text × Source) (i : ModuleId) : Prop
    extends Fills s leaf i where
  text : s₀.textOf leaf.2 = some (s.module i).source
  unshared : s.Unshared id i
  owner : (s.module i).scope.owner = .library id
  read : ∃ calls, (s.module i).ReadWith [] calls

/-- The library has a module for each of its leaves. -/
structure Populated (s₀ s : Store) (id : LibraryId) : Prop where
  usable : (s.library id).definition ≠ .unusable
  modules : ∃ ids, (s.library id).modules = ((s.library id).leaves.map Prod.fst).zip ids ∧
    List.Forall₂ (Occupies s₀ s id) (s.library id).leaves ids

/-- Libraries without plugins, as they are made: none of them is compiled. -/
structure Fresh (s : Store) : Prop where
  sound : s.Sound
  prepared : s.Prepared
  separate : s.Separate

/-- What becomes of the libraries when some of them are compiled. -/
structure Stage (s₀ s : Store) : Prop where
  sound : s.Sound
  regular : s.Regular
  since : Spares (fun _ => False) (fun _ => False) s₀ s
  populated : ∀ id, s.IsCompiled id → Populated s₀ s id

/-- Libraries that are compiled stay so, with their modules; only what plugins saw of these may have
changed. -/
structure Extends (s s' : Store) : Prop where
  modules_size : s.modules.size ≤ s'.modules.size
  isLeaf : s'.IsLeaf = s.IsLeaf
  library : ∀ id, s.IsCompiled id → s'.library id = s.library id
  modules : ∀ id, s.IsCompiled id → ∀ p ∈ (s.library id).modules,
    (s'.module p.2).bare = (s.module p.2).bare

/-- Compiling leaves the module as it is. -/
def Stays (s : Store) (i : ModuleId) : Prop := i < s.modules.size ∧ ¬ s.IsFree i

variable {s₀ s s' s'' : Store} {id : LibraryId} {i : ModuleId} {leaf : Text × Source}
  {calls : Calls}

theorem Fresh.stage (hs : s.Fresh) : Stage s s :=
  ⟨hs.sound, hs.prepared.toRegular, .refl _ _ s,
    fun id hid => absurd hid (hs.prepared.uncompiled id)⟩

theorem Extends.refl (s : Store) : Extends s s :=
  ⟨le_rfl, rfl, fun _ _ => rfl, fun _ _ _ _ => rfl⟩

theorem Extends.isCompiled (h : Extends s s') (hid : s.IsCompiled id) : s'.IsCompiled id := by
  rw [IsCompiled, h.library id hid]
  exact hid

theorem Extends.trans (h : Extends s s') (h' : Extends s' s'') : Extends s s'' where
  modules_size := h.modules_size.trans h'.modules_size
  isLeaf := h'.isLeaf.trans h.isLeaf
  library id hid := (h'.library id (h.isCompiled hid)).trans (h.library id hid)
  modules id hid p hp := by
    have hp' : p ∈ (s'.library id).modules := (h.library id hid).symm ▸ hp
    exact (h'.modules id (h.isCompiled hid) p hp').trans (h.modules id hid p hp)

/-! ## What stays -/

theorem Stays.module_eq (hi : s.Stays i) (h : Frame s s') : s'.module i = s.module i :=
  h.modules i hi.1 hi.2

theorem Stays.extends (hi : s.Stays i) (h : Extends s s') : s'.Stays i := by
  refine ⟨hi.1.trans_le h.modules_size, ?_⟩
  rintro ⟨id, hid, hleaf⟩
  exact hi.2 ⟨id, fun hid' => hid (h.isCompiled hid'), h.isLeaf ▸ hleaf⟩

theorem Stays.frame (hi : s.Stays i) (h : Frame s s') : s'.Stays i :=
  ⟨hi.1.trans_le h.modules_size, fun hfree => hi.2 (h.isFree hfree)⟩

theorem exists_of_mem_zip {α β κ : Type} {R : α → β → Prop} {f : α → κ} {as : List α} {bs : List β}
    (h : List.Forall₂ R as bs) {p : κ × β} (hp : p ∈ (as.map f).zip bs) :
    ∃ a ∈ as, f a = p.1 ∧ R a p.2 := by
  induction h with
  | nil => cases hp
  | cons hab _ ih =>
    rcases List.mem_cons.1 hp with rfl | hp
    · exact ⟨_, List.mem_cons_self, rfl, hab⟩
    · obtain ⟨a, ha, hrest⟩ := ih hp
      exact ⟨a, List.mem_cons_of_mem _ ha, hrest⟩

theorem Populated.exists_occupies (h : Populated s₀ s id) {p : Text × ModuleId}
    (hp : p ∈ (s.library id).modules) :
    ∃ leaf ∈ (s.library id).leaves, leaf.1 = p.1 ∧ Occupies s₀ s id leaf p.2 := by
  obtain ⟨ids, hmodules, hids⟩ := h.modules
  exact exists_of_mem_zip hids (hmodules ▸ hp)

theorem Occupies.of_bare (h : Occupies s₀ s id leaf i)
    (hbare : (s'.module i).bare = (s.module i).bare) (hsize : s.modules.size ≤ s'.modules.size)
    (hleaf : s'.IsLeaf = s.IsLeaf) : Occupies s₀ s' id leaf i := by
  have hpath := Module.path_of_bare hbare
  have hsource := Module.source_of_bare hbare
  refine ⟨⟨h.lt_size.trans_le hsize, hpath.trans h.path, hsource.symm ▸ h.source⟩,
    hsource.symm ▸ h.text, ?_, ?_, ?_⟩
  · rw [Unshared, hleaf]
    exact h.unshared
  · show (s'.module i).bare.scope.owner = .library id
    rw [hbare]
    exact h.owner
  · obtain ⟨calls, hread⟩ := h.read
    refine ⟨calls, ?_⟩
    show (s'.module i).bare.ReadWith [] calls
    rw [hbare]
    exact hread

/-- A library that was not touched is populated as before. -/
theorem Populated.of_bare (h : Populated s₀ s id) (hlibrary : s'.library id = s.library id)
    (hbare : ∀ p ∈ (s.library id).modules, (s'.module p.2).bare = (s.module p.2).bare)
    (hsize : s.modules.size ≤ s'.modules.size) (hleaf : s'.IsLeaf = s.IsLeaf) :
    Populated s₀ s' id := by
  refine ⟨hlibrary.symm ▸ h.usable, ?_⟩
  obtain ⟨ids, hmodules, hids⟩ := h.modules
  rw [hlibrary]
  refine ⟨ids, hmodules, ?_⟩
  have hall : ∀ i ∈ ids, (s'.module i).bare = (s.module i).bare := by
    intro i hi
    have hlength : ids.length ≤ ((s.library id).leaves.map Prod.fst).length := by
      rw [List.length_map, hids.length_eq]
    rw [← List.map_snd_zip hlength, List.mem_map] at hi
    obtain ⟨p, hp, rfl⟩ := hi
    exact hbare p (hmodules ▸ hp)
  refine List.forall₂_iff_get.2 ⟨hids.length_eq, fun n hn hn' => ?_⟩
  exact ((List.forall₂_iff_get.1 hids).2 n hn hn').of_bare (hall _ (List.getElem_mem hn')) hsize
    hleaf

theorem Populated.extends (h : Populated s₀ s id) (hid : s.IsCompiled id) (he : Extends s s') :
    Populated s₀ s' id :=
  h.of_bare (he.library id hid) (he.modules id hid) he.modules_size he.isLeaf

namespace Stage

/-- A module of a compiled library is not a leaf of one that may be compiled yet. -/
theorem stays (h : Stage s₀ s) (hid : s.IsCompiled id) {p : Text × ModuleId}
    (hp : p ∈ (s.library id).modules) : s.Stays p.2 := by
  obtain ⟨leaf, -, -, ho⟩ := (h.populated id hid).exists_occupies hp
  refine ⟨ho.lt_size, ?_⟩
  rintro ⟨id', hid', hleaf⟩
  refine ho.unshared id' ?_ hleaf
  rintro rfl
  exact hid' hid

theorem «extends» (h : Stage s₀ s) (hframe : Frame s s') : Extends s s' where
  modules_size := hframe.modules_size
  isLeaf := hframe.isLeaf
  library := hframe.libraries
  modules id hid p hp := by
    rw [(h.stays hid hp).module_eq hframe]

/-- A stage is followed by another one, if what was compiled since then is populated. -/
theorem next (h : Stage s₀ s) (he : Extends s s')
    (hspares : Spares (fun _ => False) (fun _ => False) s s') (hsound : s'.Sound)
    (hregular : s'.Regular)
    (hnew : ∀ id, ¬ s.IsCompiled id → s'.IsCompiled id → Populated s₀ s' id) : Stage s₀ s' where
  sound := hsound
  regular := hregular
  since := h.since.trans hspares
  populated id hid' := by
    by_cases hid : s.IsCompiled id
    · exact (h.populated id hid).extends hid he
    · exact hnew id hid hid'

theorem called (h : Stage s₀ s) (hc : Called calls s s') : Stage s₀ s' ∧ Frame s s' := by
  have hframe : Frame s s' := hc.spares
  refine ⟨h.next (h.extends hframe) (hframe.mono (by simp) (by simp))
    (h.sound.of_quiet hc.toQuiet) (h.regular.of_called hc) fun id hid hid' => ?_, hframe⟩
  rw [IsCompiled, hc.toQuiet.library] at hid'
  exact absurd hid' hid

end Stage

/-! ## What libraries contain -/

/-- What can be found in a library, without the numbers of modules and declarations. -/
def contents (s : Store) (id : LibraryId) : Table Text Module :=
  (s.library id).modules.map fun p => (p.1, (s.module p.2).content)

theorem lookup_contents (s : Store) (id : LibraryId) (path name : Text) (origin : Origin)
    (user : Text) :
    (s.lookup (s.library id) path name origin user).map (List.map unstamped) =
      match (s.contents id).get? path with
      | none => .error (Cause.noModule path (s.library id).name).fault
      | some m => m.lookup name origin user := by
  rw [lookup, contents, Table.get?_map fun i => (s.module i).content]
  cases (s.library id).modules.get? path with
  | none => rfl
  | some i => exact ((s.module i).lookup_content name origin user).symm

/-- Two modules that stand for one leaf have the same contents. -/
theorem Occupies.content_eq {j : ModuleId} (h : Occupies s₀ s id leaf i)
    (h' : Occupies s₀ s' id leaf j) : (s'.module j).content = (s.module i).content := by
  obtain ⟨calls, hread⟩ := h.read
  obtain ⟨calls', hread'⟩ := h'.read
  exact hread.content_eq hread' (h'.path.trans h.path.symm)
    (Option.some.inj (h'.text.symm.trans h.text))

namespace Stage

theorem bare_eq (h : Stage s₀ s) (h' : Stage s₀ s') (id : LibraryId) :
    (s'.library id).bare = (s.library id).bare :=
  (h'.since.bare id).trans (h.since.bare id).symm

/-- A library has the same contents whenever it is compiled. -/
theorem contents_eq (h : Stage s₀ s) (h' : Stage s₀ s') (hid : s.IsCompiled id)
    (hid' : s'.IsCompiled id) : s'.contents id = s.contents id := by
  obtain ⟨ids, hmodules, hids⟩ := (h.populated id hid).modules
  obtain ⟨ids', hmodules', hids'⟩ := (h'.populated id hid').modules
  have hleaves : (s'.library id).leaves = (s.library id).leaves :=
    Library.leaves_of_bare (h.bare_eq h' id)
  rw [contents, contents, hmodules, hmodules', hleaves]
  rw [hleaves] at hids'
  generalize (s.library id).leaves = leaves at hids hids'
  clear hmodules hmodules' hleaves
  induction hids generalizing ids' with
  | nil =>
    cases hids'
    rfl
  | cons ho _ ih =>
    cases hids' with
    | cons ho' hids' =>
      rw [List.map_cons, List.zip_cons_cons, List.zip_cons_cons, List.map_cons, List.map_cons,
        ih _ hids', ho.content_eq ho']

/-- Lookups in a library agree whenever it is compiled. -/
theorem lookup_eq (h : Stage s₀ s) (h' : Stage s₀ s') (hid : s.IsCompiled id)
    (hid' : s'.IsCompiled id) (path name : Text) (origin : Origin) (user : Text) :
    (s'.lookup (s'.library id) path name origin user).map (List.map unstamped) =
      (s.lookup (s.library id) path name origin user).map (List.map unstamped) := by
  rw [lookup_contents, lookup_contents, h.contents_eq h' hid hid',
    Library.name_of_bare (h.bare_eq h' id)]

/-- A module of a library has a counterpart whenever the library is compiled. -/
theorem exists_counterpart (h : Stage s₀ s) (h' : Stage s₀ s') (hid : s.IsCompiled id)
    (hid' : s'.IsCompiled id) {p : Text × ModuleId} (hp : p ∈ (s.library id).modules) :
    ∃ q ∈ (s'.library id).modules, (s'.module q.2).content = (s.module p.2).content := by
  have hmem : (p.1, (s.module p.2).content) ∈ s'.contents id := by
    rw [h.contents_eq h' hid hid']
    exact List.mem_map_of_mem hp
  obtain ⟨q, hq, heq⟩ := List.mem_map.1 hmem
  exact ⟨q, hq, (Prod.ext_iff.1 heq).2⟩

/-- If a library is compiled in some stage, its modules can be made. -/
theorem canMake (h : Stage s₀ s) (h' : Stage s₀ s') (hs₀ : s₀.Regular)
    (hid' : s'.IsCompiled id) : s.CanMake id := by
  have hpop := h'.populated id hid'
  have hbare := h.bare_eq h' id
  refine ⟨?_, fun leaf hleaf => ?_⟩
  · exact Library.definition_of_bare hbare ▸ hpop.usable
  have hleaves : (s'.library id).leaves = (s.library id).leaves := Library.leaves_of_bare hbare
  obtain ⟨ids, -, hids⟩ := hpop.modules
  rw [hleaves] at hids
  obtain ⟨n, hn, rfl⟩ := List.mem_iff_getElem.1 hleaf
  obtain ⟨hlength, hget⟩ := List.forall₂_iff_get.1 hids
  have ho := hget n hn (hlength ▸ hn)
  rw [List.get_eq_getElem] at ho
  revert hleaf ho
  generalize (s.library id).leaves[n] = leaf
  generalize ids.get ⟨n, hlength ▸ hn⟩ = i
  intro hleaf ho
  -- what was read for the leaf can be read again
  have hread : CanRead leaf.1 (s'.module i).source := by
    obtain ⟨calls, code, o, hcode, ho', -⟩ := ho.read
    cases hcode
    exact ⟨o, ho.path ▸ ho'⟩
  obtain ⟨path, source⟩ := leaf
  cases source with
  | code t =>
    obtain rfl := Option.some.inj ho.text
    exact hread
  | built j =>
    have hsize : j < s₀.modules.size := hs₀.built id j ⟨path, h.since.leaves id ▸ hleaf⟩
    obtain hj | hj := ho.source
    · cases hj
    · obtain rfl := Source.built.inj hj
      refine ⟨?_, ?_⟩
      · exact ((h.since.path j hsize).trans (h'.since.path j hsize).symm).trans ho.path
      · rw [(h.since.source j hsize).trans (h'.since.source j hsize).symm]
        exact hread
  | unsupported sort => cases ho.text

end Stage

end Store

end ShaderLink
