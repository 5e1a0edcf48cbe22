import ShaderLink.Plugin.Catalogue
import ShaderLink.Proofs.Filling
import ShaderLink.Proofs.Requests
import ShaderLink.Proofs.Trees

/-!
# Libraries from nested mappings

The definition of a library is a mapping from keys to texts and to mappings of that kind.  When it
is compiled there is a module for each text in it, in order: at the path that the keys on the way
lead to, and found there by each look-up.  That no two leaves have one path is known of trees that
have something in each branch; branches without leaves make no difference (`Tree.leaves_prune`).
-/

namespace ShaderLink

open Store LinkM

namespace Tree

section Mapping

variable {α : Type}

/-- At each level the keys differ and none has a slash in it, and an index is a leaf. -/
def Mapping : Tree α → Prop
  | nil => True
  | leaf key _ rest => (IsSegment key ∧ key ∉ rest.keys) ∧ Mapping rest
  | branch key inner rest =>
    (IsSegment key ∧ key ∉ rest.keys) ∧ key ≠ indexKey ∧ Mapping inner ∧ Mapping rest

instance decidableMapping : (t : Tree α) → Decidable t.Mapping
  | nil => isTrue trivial
  | leaf _ _ rest =>
    have := decidableMapping rest
    inferInstanceAs (Decidable (_ ∧ _))
  | branch _ inner rest =>
    have := decidableMapping inner
    have := decidableMapping rest
    inferInstanceAs (Decidable (_ ∧ _))

/-- The tree without the branches in which there are no leaves. -/
def prune : Tree α → Tree α
  | nil => nil
  | leaf key a rest => leaf key a (prune rest)
  | branch key inner rest =>
    if (prune inner).isEmpty then prune rest else branch key (prune inner) (prune rest)

variable {t : Tree α}

theorem eq_nil_of_isEmpty (h : t.isEmpty = true) : t = nil := by
  cases t with
  | nil => rfl
  | leaf => cases h
  | branch => cases h

theorem leaves_prune (t : Tree α) : t.prune.leaves = t.leaves := by
  induction t with
  | nil => rfl
  | leaf k a rest ih => rw [prune, leaves, leaves, ih]
  | branch k inner rest ihinner ih =>
    rw [prune]
    split
    · rename_i hempty
      rw [eq_nil_of_isEmpty hempty] at ihinner
      rw [leaves, ih, ← ihinner]
      rfl
    · rw [leaves, leaves, ihinner, ih]

theorem keys_prune_subset (t : Tree α) : t.prune.keys ⊆ t.keys := by
  induction t with
  | nil => exact List.Subset.refl _
  | leaf k a rest ih => exact List.cons_subset_cons k ih
  | branch k inner rest _ ih =>
    rw [prune]
    split
    · exact List.subset_cons_of_subset k ih
    · exact List.cons_subset_cons k ih

theorem Mapping.tidy_prune (ht : t.Mapping) : t.prune.Tidy := by
  induction t with
  | nil => trivial
  | leaf k a rest ih =>
    obtain ⟨⟨hk, hnew⟩, hrest⟩ := ht
    exact ⟨⟨hk, fun hmem => hnew (keys_prune_subset rest hmem)⟩, ih hrest⟩
  | branch k inner rest ihinner ih =>
    obtain ⟨⟨hk, hnew⟩, hindex, hinner, hrest⟩ := ht
    rw [prune]
    split
    · exact ih hrest
    · rename_i hempty
      have hne := (ihinner hinner).leaves_ne_nil (Bool.not_eq_true _ ▸ hempty)
      exact ⟨⟨hk, fun hmem => hnew (keys_prune_subset rest hmem)⟩, hindex, hne, ihinner hinner,
        ih hrest⟩

/-- Different leaves of a mapping have different paths. -/
theorem Mapping.nodup_paths (ht : t.Mapping) (base : Text) :
    (t.leaves.map fun p => pathOf base p.1).Nodup := by
  rw [← leaves_prune]
  exact ht.tidy_prune.nodup_paths base

theorem leaves_map {β : Type} (f : α → β) (t : Tree α) :
    (t.map f).leaves = t.leaves.map fun p => (p.1, f p.2) := by
  induction t with
  | nil => rfl
  | leaf k a rest ih => rw [map, leaves, leaves, ih, List.map_cons]
  | branch k inner rest ihinner ih =>
    rw [map, leaves, leaves, ihinner, ih, List.map_append, List.map_map, List.map_map]
    rfl

end Mapping

/-- The keys on the way to a leaf, but for those of an index, are the segments of its path. -/
theorem pathOf_eq_join (base : Text) (ks : List Text) :
    pathOf base ks = Text.join ['/'] (base :: ks.filter (· ≠ indexKey)) := by
  rw [pathOf_eq_foldl_idOf, join_eq_foldl_idOf]

theorem firstSegment_pathOf (base : Text) (ks : List Text) :
    firstSegment (pathOf base ks) = firstSegment base := by
  induction ks generalizing base with
  | nil => rfl
  | cons k ks ih => exact (ih (child base k)).trans (firstSegment_child base k)

end Tree

theorem Store.Regular.orderly {s : Store} (hs : s.Regular) : s.Orderly := ⟨hs.built, hs.idle⟩

/-- The module was made for a leaf of the library since `s`: it has the path and the text of the
leaf, belongs to the library with all its declarations, and answers for its path. -/
structure Store.Houses (s s' : Store) (id : LibraryId) (leaf : List Text × Text) (i : ModuleId) :
    Prop where
  new : s.modules.size ≤ i ∧ i < s'.modules.size
  path : (s'.module i).path =
    Text.join ['/'] ((s.library id).name :: leaf.1.filter (· ≠ Tree.indexKey))
  source : (s'.module i).source = leaf.2
  libraryOf_path : libraryOf (s'.module i).path = .ok (s.library id).name
  libraryOf_id : (∀ p ∈ (s.library id).plugins, p.KeepsPaths) →
    ∀ d ∈ (s'.module i).declarations, libraryOf d.id = .ok (s.library id).name
  lookup_eq : ∀ name origin user, ShaderLink.lookup id (s'.module i).path name origin user s' =
    ((s'.module i).lookup name origin user, s')

section Houses

variable {s s' : Store} {id : LibraryId} {t : Tree Text} {ids : List ModuleId}

theorem Store.leaves_of_mapping (h : (s.library id).definition = .tree (t.map .code)) :
    (s.library id).leaves =
      t.leaves.map fun p => (Tree.pathOf (s.library id).name p.1, Source.code p.2) := by
  rw [Library.leaves, h]
  show (t.map Source.code).leaves.map _ = _
  rw [Tree.leaves_map, List.map_map]
  rfl

/-- Compiling a library that is compiled does nothing. -/
theorem compile_of_isCompiled (hid : s.IsCompiled id) : compile id s = (.ok (), s) := by
  refine Ends.eq_ok ?_
  unfold compile
  apply ends_bind.2
  apply ends_get.2
  unfold compileAt
  apply ends_bind.2
  apply ends_get.2
  rw [if_pos (show (s.library id).isCompiled = true from hid)]
  exact ⟨rfl, rfl⟩

/-- A library that is compiled answers from its modules. -/
theorem lookup_of_isCompiled (hid : s.IsCompiled id) {path : Text} {i : ModuleId}
    (hpath : (s.library id).modules.get? path = some i) (name : Text) (origin : Origin)
    (user : Text) : ShaderLink.lookup id path name origin user s =
      ((s.module i).lookup name origin user, s) := by
  unfold ShaderLink.lookup
  rw [bind_apply, compile_of_isCompiled hid]
  show (ofExcept (s.lookup (s.library id) path name origin user) : LinkM _) s = _
  rw [Store.lookup, hpath]
  show (ofExcept ((s.module i).lookup name origin user) : LinkM _) s = _
  cases (s.module i).lookup name origin user <;> rfl

/-- What is known of a filled library makes a module answer for a leaf. -/
theorem Store.Filled.houses (hs : s.Orderly) (hname : IsSegment (s.library id).name)
    (hdefinition : (s.library id).definition = .tree (t.map .code)) (hbuilds : Builds
      (fun _ => False) s s') (hcompiled : s'.IsCompiled id) (hfilled : s'.Filled id ids)
    (hallots : s.Allots id ids) (hkeys : (s'.library id).modules.keys.Nodup)
    {leaf : List Text × Text} {i : ModuleId} (hi : i ∈ ids)
    (hfills : s'.Fills (Tree.pathOf (s.library id).name leaf.1, .code leaf.2) i)
    (hmem : (Tree.pathOf (s.library id).name leaf.1, i) ∈ (s'.library id).modules) :
    s.Houses s' id leaf i := by
  have hnot : ¬ s.IsLeaf id i := by
    rintro ⟨path, hpath⟩
    rw [leaves_of_mapping hdefinition] at hpath
    obtain ⟨_, -, heq⟩ := List.mem_map.1 hpath
    cases heq
  have hsize := (hallots i hi).resolve_left hnot
  have hown : s'.Own id i := by
    refine hfilled.own i hi fun j hj => ?_
    rw [hbuilds.frame.isLeaf] at hj
    exact (hs.built j i hj).not_ge hsize
  have hpath := hfills.path
  have hsegment : firstSegment (s'.module i).path = (s.library id).name := by
    rw [hpath, Tree.firstSegment_pathOf, firstSegment_of_isSegment hname]
  have hlibrary : libraryOf (s'.module i).path = .ok (s.library id).name :=
    libraryOf_eq_ok_iff.2 ⟨hsegment, hsegment ▸ hown.named⟩
  refine ⟨⟨hsize, hfills.lt_size⟩, hpath.trans (Tree.pathOf_eq_join _ _), ?_, hlibrary,
    fun hplugins d hd => ?_, fun name origin user => ?_⟩
  · exact hfills.source.elim (fun h => (Source.code.inj h).symm) nofun
  · have hd := hown.keepsPath (by rwa [hbuilds.frame.plugins]) d hd
    refine libraryOf_eq_ok_iff.2 ⟨?_, hsegment ▸ hown.named⟩
    rw [← hsegment, ← hd]
    exact firstSegment_idOf _ _
  · rw [hpath]
    exact lookup_of_isCompiled hcompiled ((Table.get?_eq_some_iff hkeys).2 hmem) name origin user

/-- A compiled library has one module for each text in its definition, in order.  Each has the path
that its keys lead to, and no other has it; it belongs to the library with all its declarations, and
answers each look-up at its path. -/
theorem modules_of_compile (hs : s.Orderly) (hlt : id < s.libraries.size)
    (hid : ¬ s.IsCompiled id) (hname : IsSegment (s.library id).name)
    (hdefinition : (s.library id).definition = .tree (t.map .code)) (ht : t.Mapping)
    (h : compile id s = (.ok (), s')) :
    s'.IsCompiled id ∧ ∃ ids,
      (s'.library id).modules = (t.leaves.map fun leaf =>
        Text.join ['/'] ((s.library id).name :: leaf.1.filter (· ≠ Tree.indexKey))).zip ids ∧
      (s'.library id).modules.keys.Nodup ∧ ids.Nodup ∧
        List.Forall₂ (s.Houses s' id) t.leaves ids := by
  obtain ⟨hbuilds, hcompiled⟩ := (building_compile id s hs).of_eq_ok h
  have hcompiled := hcompiled hlt
  obtain ⟨ids, hfilled, hallots⟩ := (hbuilds.filled id not_false hcompiled).resolve_left hid
  have hleaves := (hbuilds.frame.leaves id).trans (leaves_of_mapping hdefinition)
  have hpaths : (s'.library id).leaves.map Prod.fst =
      t.leaves.map fun leaf => Tree.pathOf (s.library id).name leaf.1 := by
    rw [hleaves, List.map_map]
    rfl
  have hnodup : ((s'.library id).leaves.map Prod.fst).Nodup := hpaths ▸ ht.nodup_paths _
  have hlength : ((s'.library id).leaves.map Prod.fst).length = ids.length := by
    rw [List.length_map, hfilled.fills.length_eq]
  have hmodules := hfilled.modules
  rw [Table.ofList_of_nodup (by rwa [List.map_fst_zip hlength.le])] at hmodules
  have hkeys : (s'.library id).modules.keys.Nodup := by
    rwa [hmodules, Table.keys, List.map_fst_zip hlength.le]
  have hids := nodup_of_forall₂_fills hfilled.fills hnodup
  rw [hpaths] at hmodules
  refine ⟨hcompiled, ids, ?_, hkeys, hids, ?_⟩
  · rw [hmodules]
    simp only [Tree.pathOf_eq_join]
  have hfills := hfilled.fills
  rw [hleaves, List.forall₂_map_left_iff, List.forall₂_iff_zip] at hfills
  refine List.forall₂_iff_zip.2 ⟨hfills.1, fun {leaf i} hmem => ?_⟩
  refine hfilled.houses hs hname hdefinition hbuilds hcompiled hallots hkeys
    (List.of_mem_zip hmem).2 (hfills.2 hmem) ?_
  rw [hmodules, List.zip_map_left]
  exact List.mem_map_of_mem hmem

end Houses

/-! ## Plugins that keep declarations in their modules -/

theorem NamedArguments.path_of_makePositional (seen : Surroundings) {path : Text}
    {ds : List Declaration} (hds : ∀ d ∈ ds, d.path = path) :
    (∀ d ∈ (makePositional seen ds).1, d.path = path) ∧
      ∀ new, (makePositional seen ds).2 ≠ .ok (some new) := by
  induction ds with
  | nil => exact ⟨hds, nofun⟩
  | cons d ds ih =>
    obtain ⟨hedited, hreplacement⟩ := ih (List.forall_mem_cons.1 hds).2
    unfold makePositional
    split
    · exact ⟨hds, nofun⟩
    · exact ⟨List.forall_mem_cons.2 ⟨(List.forall_mem_cons.1 hds).1, hedited⟩, hreplacement⟩

/-- The plugins that come with the linker leave all declarations in their modules. -/
theorem Plugin.keepsPaths_of_ofId {id : Text} {serial : Nat} {p : Plugin}
    (h : Plugin.ofId id serial = .ok p) : p.KeepsPaths := by
  unfold ofId at h
  split at h
  case h_1 make hmake =>
    cases h
    have hmem : (id, make) ∈ catalogue := Table.mem_of_get?_eq_some hmake
    rcases List.mem_cons.1 hmem with hmem | hmem
    · cases hmem
      intro isShader seen ds hds
      obtain ⟨hedited, hreplacement⟩ := NamedArguments.path_of_makePositional seen hds
      exact ⟨hedited, fun new hnew => absurd hnew (hreplacement new)⟩
    · cases List.mem_singleton.1 hmem
      exact fun isShader seen ds hds => ⟨hds, nofun⟩
  case h_2 => cases h

/-! ## A library with modules at three levels -/

/-- Texts at the top, in a branch and in a branch of that, and one branch with nothing in it. -/
def layeredTree : Tree Text :=
  let top := "export \x7b seed \x7d;\nconst float seed = 1.0;"
  let value := "import \x7b seed \x7d from \"noise\";\n" ++
    "float value(float x) \x7b return seed * x; \x7d"
  let lattice := "import \x7b seed \x7d from \"@\";\n" ++
    "float lattice(vec2 p) \x7b return seed + p.x; \x7d"
  .leaf Tree.indexKey top.toList <|
    .branch "value".toList
      (.leaf Tree.indexKey value.toList <|
        .branch "empty".toList .nil <|
        .branch "grid".toList (.leaf "lattice".toList lattice.toList .nil) .nil)
      .nil

/-- A library with these texts and a plugin that comes with the linker. -/
def layeredStore : Store :=
  (addLibrary "noise".toList (.tree (layeredTree.map .code)) [Namespaces.plugin 1] [] {}).2

theorem orderly_layeredStore : layeredStore.Orderly :=
  (prepared_of_checks (by decide) (by decide) (by decide)).toRegular.orderly

theorem modules_of_compile_layered :
    layeredStore.Orderly ∧ 0 < layeredStore.libraries.size ∧ ¬ layeredStore.IsCompiled 0 ∧
    IsSegment (layeredStore.library 0).name ∧
    (layeredStore.library 0).definition = .tree (layeredTree.map .code) ∧ layeredTree.Mapping ∧
    ∃ s', compile 0 layeredStore = (.ok (), s') ∧ s'.IsCompiled 0 ∧ ∃ ids,
      (s'.library 0).modules =
        ["noise".toList, "noise/value".toList, "noise/value/grid/lattice".toList].zip ids ∧
      (s'.library 0).modules.keys.Nodup ∧ ids.Nodup ∧
        List.Forall₂ (layeredStore.Houses s' 0) layeredTree.leaves ids := by
  have hlt : 0 < layeredStore.libraries.size := by decide
  have hid : ¬ layeredStore.IsCompiled 0 := Bool.false_ne_true
  have hname : IsSegment (layeredStore.library 0).name := by decide
  have ht : layeredTree.Mapping := by decide
  have hok : (compile 0 layeredStore).1.isOk = true := by decide +kernel
  obtain ⟨⟨⟩, s', hcompile⟩ := exists_eq_ok hok
  exact ⟨orderly_layeredStore, hlt, hid, hname, rfl, ht, s', hcompile,
    modules_of_compile orderly_layeredStore hlt hid hname rfl ht hcompile⟩

end ShaderLink
