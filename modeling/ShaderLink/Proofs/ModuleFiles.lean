import ShaderLink.Proofs.Requests
import ShaderLink.Proofs.Trees

/-!
# Module files

A library that is loaded from a folder should have one module for each module file in it, at any
depth.  Each file and each folder is entered under a key (`Folder.Adds`), and what was entered under
the key before is lost.  In one folder only a file `s.glsl` and a folder `s` can have the same key,
if `s` is no index.  So the modules are those of the files just if no such pair holds modules:
`sources_loaded`.
-/

namespace ShaderLink

open LinkM Store

/-! ## Module files -/

/-- A file that is to become a module: the folders on the way to it, its name without the end, and
what it holds. -/
structure ModuleFile where
  folders : List Text
  stem : Text
  file : File

namespace ModuleFile

/-- The path of the module: an index stands for the folder that it lies in. -/
def path (library : Text) (m : ModuleFile) : Text :=
  Text.join ['/'] (library :: (m.folders ++ if m.stem = "index".toList then [] else [m.stem]))

/-- The keys of the module in the definition of a library. -/
def keys (m : ModuleFile) : List Text := m.folders ++ [Folder.moduleKey m.stem]

/-- What becomes of the file there. -/
def entry (m : ModuleFile) : List Text × Source :=
  (m.keys, .code (m.file.text.toOption.getD []))

/-- The same file, as it is found from the folder around the given one. -/
def within (name : Text) (m : ModuleFile) : ModuleFile := { m with folders := name :: m.folders }

theorem entry_within (name : Text) (m : ModuleFile) :
    (m.within name).entry = (name :: m.entry.1, m.entry.2) := rfl

end ModuleFile

namespace Folder

/-- The module files in a folder, at any depth. -/
def moduleFiles (t : Folder) : List ModuleFile :=
  t.leaves.filterMap fun p => (moduleStem? (Route.name p.1)).map fun stem =>
    ⟨p.1.dropLast, stem, p.2⟩

/-- At each level the names differ, and there is no slash in them.  None stands for an index. -/
def Proper : Folder → Prop
  | .nil => True
  | .leaf name _ rest =>
    (IsSegment name ∧ name ∉ rest.keys ∧ name ≠ Tree.indexKey ++ moduleSuffix) ∧ Proper rest
  | .branch name inner rest =>
    (IsSegment name ∧ name ∉ rest.keys ∧ name ≠ Tree.indexKey) ∧ Proper inner ∧ Proper rest

instance decidableProper : (t : Folder) → Decidable t.Proper
  | .nil => inferInstanceAs (Decidable True)
  | .leaf name _ rest =>
    have := decidableProper rest
    inferInstanceAs (Decidable
      ((IsSegment name ∧ name ∉ rest.keys ∧ name ≠ Tree.indexKey ++ moduleSuffix) ∧ Proper rest))
  | .branch name inner rest =>
    have := decidableProper inner
    have := decidableProper rest
    inferInstanceAs (Decidable
      ((IsSegment name ∧ name ∉ rest.keys ∧ name ≠ Tree.indexKey) ∧ Proper inner ∧ Proper rest))

/-- Somewhere a module file stands beside a folder of its stem in which there is another one, at any
depth. -/
def Clashes (t : Folder) : Prop :=
  ∃ m ∈ t.moduleFiles, ∃ m' ∈ t.moduleFiles, m.stem ≠ "index".toList ∧
    m.folders ++ [m.stem] <+: m'.folders

section Files

variable {t acc d inner rest : Folder} {name stem : Text} {f : File} {m : ModuleFile}

theorem moduleStem?_eq_some_iff :
    moduleStem? name = some stem ↔ name = stem ++ moduleSuffix ∧ stem ≠ [] := by
  unfold moduleStem?
  split
  · rename_i h
    rw [Bool.and_eq_true, List.isSuffixOf_iff_suffix, decide_eq_true_iff] at h
    obtain ⟨⟨u, rfl⟩, hlength⟩ := h
    rw [List.length_append, Nat.add_sub_cancel, List.take_left, Option.some.injEq]
    rw [List.length_append, Nat.lt_add_left_iff_pos, List.length_pos_iff] at hlength
    constructor
    · rintro rfl
      exact ⟨rfl, hlength⟩
    · rintro ⟨h, -⟩
      exact List.append_cancel_right h
  · rename_i h
    refine ⟨nofun, ?_⟩
    rintro ⟨rfl, hne⟩
    refine absurd ?_ h
    rw [Bool.and_eq_true, List.isSuffixOf_iff_suffix, decide_eq_true_iff, List.length_append,
      Nat.lt_add_left_iff_pos, List.length_pos_iff]
    exact ⟨List.suffix_append _ _, hne⟩

theorem moduleFiles_leaf (name : Text) (f : File) (rest : Folder) :
    moduleFiles (.leaf name f rest) =
      ((moduleStem? name).map fun stem => ⟨[], stem, f⟩).toList ++ rest.moduleFiles := by
  rw [moduleFiles, Tree.leaves, List.filterMap_cons]
  cases h : moduleStem? name <;> simp [Route.name, h, moduleFiles]

theorem moduleFiles_branch (name : Text) (inner rest : Folder) :
    moduleFiles (.branch name inner rest) =
      inner.moduleFiles.map (·.within name) ++ rest.moduleFiles := by
  rw [moduleFiles, Tree.leaves, List.filterMap_append, List.filterMap_map, moduleFiles,
    List.map_filterMap]
  refine congrArg (· ++ rest.moduleFiles) (List.filterMap_congr fun p hp => ?_)
  obtain ⟨k, -, ks, hks⟩ := Tree.exists_key_of_mem_leaves hp
  have hname : Route.name (name :: p.1) = Route.name p.1 := by simp [Route.name, hks]
  have hfolders : (name :: p.1).dropLast = name :: p.1.dropLast :=
    List.dropLast_cons_of_ne_nil (by simp [hks])
  rw [Function.comp_apply, hname, hfolders, Option.map_map]
  rfl

/-- The first name on the way to a module file is that of an entry. -/
theorem head_mem_keys (hm : m ∈ t.moduleFiles) {k : Text} {ks : List Text}
    (hk : m.folders ++ [m.stem ++ moduleSuffix] = k :: ks) : k ∈ t.keys := by
  obtain ⟨p, hp, hmap⟩ := List.mem_filterMap.1 hm
  obtain ⟨stem, hstem, rfl⟩ := Option.map_eq_some_iff.1 hmap
  obtain ⟨k', hk', ks', hks⟩ := Tree.exists_key_of_mem_leaves hp
  have hne : p.1 ≠ [] := by simp [hks]
  have hname : p.1.getLast hne = stem ++ moduleSuffix := by
    rw [← (moduleStem?_eq_some_iff.1 hstem).1]
    simp [Route.name, List.getLast?_eq_getLast_of_ne_nil hne]
  rw [← hname, List.dropLast_append_getLast, hks] at hk
  exact (List.cons.inj hk).1 ▸ hk'

/-- Nothing on the way to a module file stands for an index. -/
theorem Proper.ne_indexKey (ht : t.Proper) (hm : m ∈ t.moduleFiles) :
    (∀ k ∈ m.folders, k ≠ Tree.indexKey) ∧ m.stem ≠ Tree.indexKey := by
  induction t generalizing m with
  | nil => cases hm
  | leaf name f rest ih =>
    obtain ⟨⟨-, -, hname⟩, hrest⟩ := ht
    rw [moduleFiles_leaf] at hm
    rcases List.mem_append.1 hm with hm | hm
    · obtain ⟨stem, hstem, rfl⟩ := Option.map_eq_some_iff.1 (Option.mem_toList.1 hm)
      refine ⟨nofun, ?_⟩
      rintro rfl
      exact hname (moduleStem?_eq_some_iff.1 hstem).1
    · exact ih hrest hm
  | branch name inner rest ihinner ih =>
    obtain ⟨⟨-, -, hname⟩, hinner, hrest⟩ := ht
    rw [moduleFiles_branch] at hm
    rcases List.mem_append.1 hm with hm | hm
    · obtain ⟨m', hm', rfl⟩ := List.mem_map.1 hm
      obtain ⟨hfolders, hstem⟩ := ihinner hinner hm'
      exact ⟨List.forall_mem_cons.2 ⟨hname, hfolders⟩, hstem⟩
    · exact ih hrest hm

theorem Proper.path_eq (ht : t.Proper) (hm : m ∈ t.moduleFiles) (library : Text) :
    m.path library = Tree.pathOf library m.keys := by
  obtain ⟨hfolders, hstem⟩ := ht.ne_indexKey hm
  have hkept : m.folders.filter (· ≠ Tree.indexKey) = m.folders :=
    List.filter_eq_self.2 fun k hk => decide_eq_true (hfolders k hk)
  rw [ModuleFile.path, Tree.join_eq_foldl_idOf, Tree.pathOf_eq_foldl_idOf, ModuleFile.keys,
    List.filter_append, hkept, moduleKey]
  by_cases hindex : m.stem = "index".toList
  · rw [if_pos hindex, if_pos hindex]
    simp
  · rw [if_neg hindex, if_neg hindex]
    simp [hstem]

/-! ## What is entered for each file -/

/-- The entries of a folder are added to a definition in order. -/
inductive Adds : Folder → Tree Source → Tree Source → Prop where
  | done {t : Tree Source} : Adds .nil t t
  | skipped {name : Text} {f : File} {rest : Folder} {t d : Tree Source}
      (hname : moduleStem? name = none) (hrest : Adds rest t d) : Adds (.leaf name f rest) t d
  | file {name stem code : Text} {f : File} {rest : Folder} {t d : Tree Source}
      (hname : moduleStem? name = some stem) (htext : f.text = .ok code)
      (hrest : Adds rest (Tree.setLeaf (moduleKey stem) (.code code) t) d) :
      Adds (.leaf name f rest) t d
  | empty {name : Text} {inner rest : Folder} {t d : Tree Source} (hinner : Adds inner .nil .nil)
      (hrest : Adds rest t d) : Adds (.branch name inner rest) t d
  | folder {name : Text} {inner rest : Folder} {modules t d : Tree Source}
      (hinner : Adds inner .nil modules) (hne : modules.isEmpty = false)
      (hrest : Adds rest (Tree.setBranch name modules t) d) : Adds (.branch name inner rest) t d

theorem adds_of_addModules {here : Route} {acc d : Tree Source}
    (h : addModules here t acc = .ok d) : Adds t acc d := by
  induction t generalizing here acc d with
  | nil =>
    cases h
    exact .done
  | leaf name f rest ih =>
    obtain ⟨_, -, h⟩ := exists_of_bind_eq_ok h
    cases hname : moduleStem? name with
    | none =>
      rw [hname] at h
      exact .skipped hname (ih h)
    | some stem =>
      rw [hname] at h
      obtain ⟨code, htext, h⟩ := exists_of_bind_eq_ok h
      exact .file hname htext (ih h)
  | branch name inner rest ihinner ih =>
    obtain ⟨_, -, h⟩ := exists_of_bind_eq_ok h
    obtain ⟨modules, hinner, h⟩ := exists_of_bind_eq_ok h
    cases modules with
    | nil => exact .empty (ihinner hinner) (ih h)
    | leaf | branch => exact .folder (ihinner hinner) rfl (ih h)

theorem moduleKey_isSegment (h : IsSegment (stem ++ moduleSuffix)) :
    IsSegment (moduleKey stem) := by
  unfold moduleKey
  split
  · decide
  · exact fun hmem => h (List.mem_append_left _ hmem)

namespace Adds

variable {acc d : Tree Source}

theorem tidy (h : Adds t acc d) (ht : t.Proper) (hacc : acc.Tidy) : d.Tidy := by
  induction h with
  | done => exact hacc
  | skipped _ _ ih => exact ih ht.2 hacc
  | file hname _ _ ih =>
    obtain ⟨⟨hsegment, -⟩, hrest⟩ := ht
    obtain ⟨rfl, -⟩ := moduleStem?_eq_some_iff.1 hname
    exact ih hrest (hacc.setLeaf (moduleKey_isSegment hsegment))
  | empty _ _ _ ih => exact ih ht.2.2 hacc
  | folder _ hne _ ihinner ih =>
    obtain ⟨⟨hsegment, -, hindex⟩, hinner, hrest⟩ := ht
    have hmodules := ihinner hinner trivial
    exact ih hrest (hacc.setBranch hsegment hindex hmodules (hmodules.leaves_ne_nil hne))

/-- All module files can be read. -/
theorem exists_text (h : Adds t acc d) : ∀ m ∈ t.moduleFiles, ∃ code, m.file.text = .ok code := by
  induction h with
  | done => exact nofun
  | skipped hname _ ih =>
    rw [moduleFiles_leaf, hname]
    exact ih
  | file hname htext _ ih =>
    rw [moduleFiles_leaf, hname]
    exact List.forall_mem_cons.2 ⟨⟨_, htext⟩, ih⟩
  | empty _ _ ihinner ih | folder _ _ _ ihinner ih =>
    rw [moduleFiles_branch, List.forall_mem_append, List.forall_mem_map]
    exact ⟨ihinner, ih⟩

theorem entry_of_text {code : Text} (htext : f.text = .ok code) (stem : Text) :
    (⟨[], stem, f⟩ : ModuleFile).entry = ([moduleKey stem], .code code) := by
  rw [ModuleFile.entry, htext]
  rfl

/-- Nothing is entered but what stands for the module files. -/
theorem subperm (h : Adds t acc d) :
    d.leaves.Subperm (acc.leaves ++ t.moduleFiles.map (·.entry)) := by
  induction h with
  | done => exact (List.append_nil _).symm ▸ List.Subperm.refl _
  | skipped hname _ ih =>
    rw [moduleFiles_leaf, hname]
    exact ih
  | @file name stem code f rest acc d hname htext _ ih =>
    have hset := Tree.leaves_setLeaf_subperm (moduleKey stem) (.code code) acc
    rw [moduleFiles_leaf, hname]
    simpa [entry_of_text htext] using ih.trans ((List.subperm_append_right _).2 hset)
  | empty _ _ _ ih =>
    rw [moduleFiles_branch, List.map_append]
    exact ih.trans ((List.subperm_append_left _).2 (List.sublist_append_right _ _).subperm)
  | @folder name inner rest modules acc d _ _ _ ihinner ih =>
    have hset := Tree.leaves_setBranch_subperm name modules acc
    have hinner : (modules.leaves.map fun p => (name :: p.1, p.2)).Subperm
        ((inner.moduleFiles.map (·.within name)).map (·.entry)) := by
      obtain ⟨sub, hperm, hsub⟩ := ihinner
      rw [List.map_map]
      have hmap := hsub.map fun p => (name :: p.1, p.2)
      rw [Tree.leaves, List.nil_append, List.map_map] at hmap
      exact ⟨_, hperm.map _, hmap⟩
    rw [moduleFiles_branch, List.map_append, ← List.append_assoc]
    refine ih.trans ((List.subperm_append_right _).2 (hset.trans ?_))
    exact (List.subperm_append_left _).2 hinner

end Adds

/-! ## Clashes -/

theorem Clashes.mono {u : Folder} (h : t.Clashes) (hu : ∀ m ∈ t.moduleFiles, m ∈ u.moduleFiles) :
    u.Clashes := by
  obtain ⟨m, hm, m', hm', hclash⟩ := h
  exact ⟨m, hu m hm, m', hu m' hm', hclash⟩

theorem Clashes.within (h : inner.Clashes) (name : Text) (rest : Folder) :
    Clashes (.branch name inner rest) := by
  obtain ⟨m, hm, m', hm', hne, hprefix⟩ := h
  have hmem : ∀ m ∈ inner.moduleFiles, m.within name ∈ moduleFiles (.branch name inner rest) := by
    rw [moduleFiles_branch]
    exact fun m hm => List.mem_append_left _ (List.mem_map_of_mem hm)
  exact ⟨_, hmem m hm, _, hmem m' hm', hne, (List.prefix_cons_inj name).2 hprefix⟩

theorem moduleKey_eq_of_ne_indexKey (h : moduleKey stem ≠ Tree.indexKey) :
    moduleKey stem = stem ∧ stem ≠ "index".toList := by
  unfold moduleKey at h ⊢
  split at h
  · exact absurd rfl h
  · rename_i hindex
    exact ⟨if_neg hindex, hindex⟩

/-- The key of a module file in a folder begins no other key there, unless there is a clash. -/
theorem Proper.head_ne_moduleKey (ht : Proper (.leaf (stem ++ moduleSuffix) f rest))
    (hne : stem ≠ []) (hclash : ¬ Clashes (.leaf (stem ++ moduleSuffix) f rest))
    (hm : m ∈ rest.moduleFiles) {k : Text} {ks : List Text} (hk : m.keys = k :: ks) :
    k ≠ moduleKey stem := by
  obtain ⟨⟨-, hname, hindex⟩, hrest⟩ := ht
  obtain ⟨hfolders, hstem⟩ := hrest.ne_indexKey hm
  have hfiles := moduleFiles_leaf (stem ++ moduleSuffix) f rest
  rw [moduleStem?_eq_some_iff.2 ⟨rfl, hne⟩] at hfiles
  rintro rfl
  rw [ModuleFile.keys] at hk
  cases hfolder : m.folders with
  | nil =>
    -- another module file in the same folder has another name
    rw [hfolder] at hk
    have hkey : moduleKey m.stem = moduleKey stem := (List.cons.inj hk).1
    have hsame : m.stem = stem := by
      unfold moduleKey at hkey
      split at hkey <;> split at hkey
      · rename_i h h'
        rw [h, h']
      · exact absurd (hkey ▸ rfl) hindex
      · exact absurd hkey hstem
      · exact hkey
    have hway : m.folders ++ [m.stem ++ moduleSuffix] = [stem ++ moduleSuffix] := by
      rw [hfolder, hsame]
      rfl
    exact hname (head_mem_keys hm hway)
  | cons k ks' =>
    rw [hfolder] at hk
    have hkey : k = moduleKey stem := (List.cons.inj hk).1
    obtain ⟨heq, hnot⟩ := moduleKey_eq_of_ne_indexKey
      (hkey ▸ hfolders k (hfolder ▸ List.mem_cons_self))
    refine hclash ⟨⟨[], stem, f⟩, ?_, m, ?_, hnot, ?_⟩
    · rw [hfiles]
      exact List.mem_cons_self
    · rw [hfiles]
      exact List.mem_cons_of_mem _ hm
    · rw [hfolder, hkey, heq]
      exact ⟨ks', rfl⟩

/-- The name of a folder with module files begins no other key beside it, unless there is a
clash. -/
theorem Proper.head_ne_name (ht : Proper (.branch name inner rest))
    (hclash : ¬ Clashes (.branch name inner rest)) {m' : ModuleFile}
    (hinner : m' ∈ inner.moduleFiles) (hm : m ∈ rest.moduleFiles) {k : Text} {ks : List Text}
    (hk : m.keys = k :: ks) : k ≠ name := by
  obtain ⟨⟨-, hname, hindex⟩, -, hrest⟩ := ht
  rintro rfl
  rw [ModuleFile.keys] at hk
  cases hfolder : m.folders with
  | nil =>
    rw [hfolder] at hk
    have hkey : moduleKey m.stem = k := (List.cons.inj hk).1
    obtain ⟨heq, hnot⟩ := moduleKey_eq_of_ne_indexKey (hkey.symm ▸ hindex)
    refine hclash ⟨m, ?_, m'.within k, ?_, hnot, ?_⟩
    · rw [moduleFiles_branch]
      exact List.mem_append_right _ hm
    · rw [moduleFiles_branch]
      exact List.mem_append_left _ (List.mem_map_of_mem hinner)
    · rw [hfolder, ← heq, hkey]
      exact ⟨m'.folders, rfl⟩
  | cons k' ks' =>
    rw [hfolder] at hk
    obtain rfl : k' = k := (List.cons.inj hk).1
    exact hname (head_mem_keys hm (by rw [hfolder]; rfl))

namespace Adds

variable {acc d : Tree Source}

/-- What is entered for a folder, if nothing is lost. -/
theorem leaves_eq (h : Adds t acc d) (ht : t.Proper) (hclash : ¬ t.Clashes)
    (hnew : ∀ m ∈ t.moduleFiles, ∀ k ks, m.keys = k :: ks → k ∉ acc.keys) :
    d.leaves = acc.leaves ++ t.moduleFiles.map (·.entry) := by
  induction h with
  | done => exact (List.append_nil _).symm
  | @skipped name f rest acc d hname _ ih =>
    have hfiles := moduleFiles_leaf name f rest
    rw [hname] at hfiles
    rw [hfiles] at hnew ⊢
    exact ih ht.2 (fun h => hclash (h.mono fun m hm => hfiles ▸ hm)) hnew
  | @file name stem code f rest acc d hname htext _ ih =>
    have hfiles := moduleFiles_leaf name f rest
    rw [hname] at hfiles
    obtain ⟨rfl, hne⟩ := moduleStem?_eq_some_iff.1 hname
    rw [hfiles] at hnew ⊢
    obtain ⟨hkey, hnew⟩ := List.forall_mem_cons.1 hnew
    have hkey : moduleKey stem ∉ acc.keys := hkey _ [] rfl
    rw [ih ht.2 (fun h => hclash (h.mono fun m hm => hfiles ▸ List.mem_cons_of_mem _ hm)),
      Tree.leaves_setLeaf _ hkey]
    · simp [entry_of_text htext]
    · intro m hm k ks hk hmem
      rcases Tree.mem_keys_setLeaf hmem with rfl | hmem
      · exact ht.head_ne_moduleKey hne hclash hm hk rfl
      · exact hnew m hm k ks hk hmem
  | @empty name inner rest acc d _ _ ihinner ih =>
    obtain ⟨-, hinner, hrest⟩ := ht
    have hnone := ihinner hinner (fun h => hclash (h.within name rest)) fun _ _ _ _ _ =>
      List.not_mem_nil
    have hfiles := moduleFiles_branch name inner rest
    rw [List.map_eq_nil_iff.1 (List.append_eq_nil_iff.1 hnone.symm).2, List.map_nil,
      List.nil_append] at hfiles
    rw [hfiles] at hnew ⊢
    exact ih hrest (fun h => hclash (h.mono fun m hm => hfiles ▸ hm)) hnew
  | @folder name inner rest modules acc d hadds hne _ ihinner ih =>
    have hinner := ht.2.1
    have hrest := ht.2.2
    have hmodules := ihinner hinner (fun h => hclash (h.within name rest)) fun _ _ _ _ _ =>
      List.not_mem_nil
    rw [Tree.leaves, List.nil_append] at hmodules
    have hfiles := moduleFiles_branch name inner rest
    rw [hfiles, List.forall_mem_append, List.forall_mem_map] at hnew
    obtain ⟨m', hm'⟩ := List.exists_mem_of_ne_nil inner.moduleFiles fun hnone =>
      (hadds.tidy hinner trivial).leaves_ne_nil hne (by rw [hmodules, hnone]; rfl)
    have hkey : name ∉ acc.keys := hnew.1 m' hm' name m'.keys rfl
    have hrestClash : ¬ rest.Clashes :=
      fun h => hclash (h.mono fun m hm => hfiles ▸ List.mem_append_right _ hm)
    rw [ih hrest hrestClash, Tree.leaves_setBranch _ hkey, hmodules, hfiles]
    · simp [ModuleFile.entry_within]
    · intro m hm k ks hk hmem
      rcases Tree.mem_keys_setBranch hmem with rfl | hmem
      · exact ht.head_ne_name hclash hm' hm hk rfl
      · exact hnew.2 m hm k ks hk hmem

/-- If there is a clash, something is lost. -/
theorem length_lt (h : Adds t .nil d) (ht : t.Proper) (hclash : t.Clashes) :
    d.leaves.length < t.moduleFiles.length := by
  have hsub := h.subperm
  rw [Tree.leaves, List.nil_append] at hsub
  have hlength : (t.moduleFiles.map (·.entry)).length = t.moduleFiles.length := List.length_map _
  refine lt_of_le_of_ne (hlength ▸ hsub.length_le) fun heq => ?_
  have hperm := hsub.perm_of_length_le (heq ▸ hlength.le)
  obtain ⟨m, hm, m', hm', hne, hprefix⟩ := hclash
  have hmem : ∀ m ∈ t.moduleFiles, m.entry ∈ d.leaves :=
    fun m hm => hperm.mem_iff.2 (List.mem_map_of_mem hm)
  -- the leaf of one file would be on the way to that of the other
  have hkeys : m.keys = m.folders ++ [m.stem] := by
    rw [ModuleFile.keys, moduleKey, if_neg hne]
  have hway : m.keys <+: m'.keys := hkeys ▸ hprefix.trans (List.prefix_append _ _)
  have hsame : m.keys = m'.keys :=
    (h.tidy ht trivial).eq_of_isPrefix (hmem m hm) (hmem m' hm') hway
  have hle := hprefix.length_le
  have hlt := congrArg List.length (hkeys.symm.trans hsame)
  rw [ModuleFile.keys, List.length_append, List.length_append, List.length_singleton,
    List.length_singleton] at hlt
  rw [List.length_append, List.length_singleton] at hle
  omega

end Adds

end Files

end Folder

/-! ## Loading -/

namespace Store

/-- The modules of a library in order, each with its path and its source. -/
def sources (s : Store) (id : LibraryId) : List (Text × Except Fault Text) :=
  (s.library id).modules.map fun p => ((s.module p.2).path, .ok (s.module p.2).source)

variable {s s' : Store} {name : Text} {definition : Definition} {plugins : List Plugin}
  {id : LibraryId}

/-- A new library leaves the store regular, if its modules exist and have different paths. -/
theorem Regular.addLibrary (hs : s.Regular)
    (hbuilt : ∀ p ∈ Library.leaves { name, definition }, ∀ i, p.2 = .built i → i < s.modules.size)
    (hdistinct : ((Library.leaves { name, definition }).map Prod.fst).Nodup)
    (h : LinkM.addLibrary name definition plugins [] s = (.ok id, s')) :
    s'.Regular ∧ s'.Idle id ∧ id < s'.libraries.size ∧
      (s'.library id).leaves = Library.leaves { name, definition } := by
  let l : Library :=
    { name, definition, plugins, dependencies := [(name, s.libraries.size)] }
  obtain ⟨rfl, rfl⟩ : s.libraries.size = id ∧
      ({ s with libraries := s.libraries.push l } : Store) = s' := by
    cases h
    exact ⟨rfl, rfl⟩
  let s' : Store := { s with libraries := s.libraries.push l }
  have hnew : s'.library s.libraries.size = l := by rw [library_push, if_pos rfl]
  have hlibrary : ∀ id, id = s.libraries.size ∨ s'.library id = s.library id := by
    intro id
    rw [library_push]
    by_cases hid : id = s.libraries.size
    · exact Or.inl hid
    · exact Or.inr (if_neg hid)
  have hsize : s.libraries.size ≤ s'.libraries.size := by simp [s']
  have hrange : ∀ t, s.InRange t → s'.InRange t := fun t ht p hp => (ht p hp).trans_le hsize
  have hlt : s.libraries.size < s'.libraries.size := by simp [s']
  refine ⟨⟨fun id hid => ?_, fun i hi => ⟨(hs.scopes i hi).1, hrange _ (hs.scopes i hi).2⟩,
    fun id i hi => ?_, fun id => ?_, fun id => ?_, hrange _ hs.registered⟩, ?_, hlt, ?_⟩
  · rcases hlibrary id with rfl | hold
    · rw [hnew]
    · rw [IsCompiled, hold] at hid
      rw [hold]
      exact hs.idle id hid
  · obtain ⟨path, hleaf⟩ := hi
    rcases hlibrary id with rfl | hold
    · rw [hnew] at hleaf
      exact hbuilt _ hleaf i rfl
    · rw [hold] at hleaf
      exact hs.built id i ⟨path, hleaf⟩
  · rcases hlibrary id with rfl | hold
    · rw [hnew]
      exact hdistinct
    · rw [hold]
      exact hs.distinct id
  · rcases hlibrary id with rfl | hold
    · rw [hnew]
      intro p hp
      obtain rfl := List.mem_singleton.1 hp
      exact hlt
    · rw [hold]
      exact hrange _ (hs.dependencies id)
  · rw [Idle, IsCompiled, hnew]
    exact ⟨Bool.false_ne_true, rfl⟩
  · rw [hnew]
    rfl

end Store

/-! ## Loading -/

/-- What loading a library does, however its manifest is read. -/
theorem ends_loadLibrary [Manifest.Reader] (root : Folder) (folder : Route) (plugins : List Plugin)
    (s : Store) :
    Ends (fun p s' => ∃ t d s₁, root.readFolder folder = .ok t ∧ t.addModules folder .nil = .ok d ∧
        Called [] s s₁ ∧
          LinkM.addLibrary p.2.name (.tree d) plugins [] s₁ = (.ok p.1, s'))
      (fun _ => True) (loadLibrary root folder plugins s) := by
  unfold loadLibrary
  apply ends_bind.2
  apply ends_ofExcept.2
  refine ⟨fun isFolder _ => ?_, fun _ _ => trivial⟩
  split
  · trivial
  · apply ends_bind.2
    apply ends_ofExcept.2
    refine ⟨fun manifest _ => ?_, fun _ _ => trivial⟩
    apply ends_bind.2
    apply ends_ofExcept.2
    refine ⟨fun d hd => ?_, fun _ _ => trivial⟩
    obtain ⟨t, ht, hd⟩ := exists_of_bind_eq_ok hd
    have hrest : ∀ s₁, Called [] s s₁ → Ends (fun p s' => ∃ t d s₁, root.readFolder folder = .ok t ∧
        t.addModules folder .nil = .ok d ∧ Called [] s s₁ ∧
          LinkM.addLibrary p.2.name (.tree d) plugins [] s₁ = (.ok p.1, s')) (fun _ => True)
        ((do
          note (.loadedLibrary manifest.name folder.text)
          let id ← LinkM.addLibrary manifest.name (.tree d) plugins []
          return (id, manifest) : LinkM (LibraryId × Manifest)) s₁) :=
      fun s₁ h₁ => ⟨t, d, _, ht, hd, h₁.trans (called_note _), rfl⟩
    by_cases hempty : d.isEmpty = true
    · rw [if_pos hempty]
      exact hrest _ (called_note _)
    · rw [if_neg hempty]
      exact hrest s (.refl s)

section Complete

variable {s : Store} {id : LibraryId} {plugins : List Plugin} {work : Work}

theorem Store.Complete.length_sources (h : s.Complete id plugins work) :
    (s.sources id).length = (s.library id).leaves.length := by
  rw [sources, List.length_map, h.modules, List.length_zip, List.length_map, List.length_map,
    ← h.fills.length_eq, min_self]

/-- The modules of a complete library stand for its leaves. -/
theorem Store.Complete.sources_eq {α : Type} {as : List α} {path text : α → Text}
    (h : s.Complete id plugins work)
    (hleaves : (s.library id).leaves = as.map fun a => (path a, .code (text a))) :
    s.sources id = as.map fun a => (path a, .ok (text a)) := by
  have hfills := h.fills
  rw [sources, h.modules, hleaves]
  rw [hleaves] at hfills
  clear h hleaves
  induction as generalizing work with
  | nil => rfl
  | cons a as ih =>
    cases hfills with
    | cons hfills hrest =>
      rename_i w work
      have hsource : text a = (s.module w.1).source := by
        rcases hfills.source with h | h
        · exact Source.code.inj h
        · cases h
      rw [List.map_cons, List.map_cons, List.map_cons, List.map_cons, List.zip_cons_cons,
        List.map_cons, ih hrest, hfills.path, ← hsource]

end Complete

/-- A library that was loaded from a folder and is compiled, however its manifest is read and whatever
was asked for in between, has just one module for each module file in the folder, at its path and with
its text, if no module file stands beside a folder of its stem that holds others.  If one does,
something is missing. -/
theorem sources_loaded [Manifest.Reader] {root : Folder} {folder : Route} {plugins : List Plugin}
    {s s' : Store} {id : LibraryId} {manifest : Manifest} {t : Folder} {rs : List Request}
    (hs : s.Regular)
    (hload : loadLibrary root folder plugins s = (.ok (id, manifest), s'))
    (ht : root.readFolder folder = .ok t) (hproper : t.Proper)
    (hrs : ∀ r ∈ rs, r.InRange s'.libraries.size) (hid : (s'.after rs).IsCompiled id) :
    ((s'.after rs).sources id).Perm
      (t.moduleFiles.map fun m => (m.path manifest.name, m.file.text)) ↔ ¬ t.Clashes := by
  obtain ⟨t', d, s₁, ht', hd, hcalled, hadd⟩ :=
    (ends_loadLibrary root folder plugins s).of_eq_ok hload
  obtain rfl := Except.ok.inj (ht.symm.trans ht')
  have hadds := Folder.adds_of_addModules hd
  have hcode : ∀ p ∈ d.leaves, ∃ m : ModuleFile, p = m.entry := by
    intro p hp
    have hmem := hadds.subperm.subset hp
    rw [Tree.leaves, List.nil_append] at hmem
    obtain ⟨m, -, rfl⟩ := List.mem_map.1 hmem
    exact ⟨m, rfl⟩
  let l : Library := { name := manifest.name, definition := .tree d }
  have hbuilt : ∀ p ∈ l.leaves, ∀ i, p.2 = .built i → i < s₁.modules.size := by
    intro p hp i hi
    obtain ⟨q, hq, rfl⟩ := List.mem_map.1 hp
    obtain ⟨m, rfl⟩ := hcode q hq
    cases hi
  have hdistinct : (l.leaves.map Prod.fst).Nodup := by
    rw [Library.leaves, List.map_map]
    exact (hadds.tidy hproper trivial).nodup_paths manifest.name
  obtain ⟨hs', hidle, -, hleaves⟩ := (hs.of_called hcalled).addLibrary hbuilt hdistinct hadd
  obtain ⟨_, _, _, work, -, -, hcomplete⟩ := (hidle.settled hs' hrs).resolve_left fun h => h.1 hid
  have hleaves : ((s'.after rs).library id).leaves =
      d.leaves.map fun p => (Tree.pathOf manifest.name p.1, p.2) :=
    (leaves_after hs' hrs id).trans hleaves
  constructor
  · intro hperm hclash
    have hlength := hperm.length_eq
    rw [hcomplete.length_sources, hleaves, List.length_map, List.length_map] at hlength
    exact (hadds.length_lt hproper hclash).ne hlength
  · intro hclash
    have hentries : d.leaves = t.moduleFiles.map (·.entry) :=
      hadds.leaves_eq hproper hclash fun _ _ _ _ _ => List.not_mem_nil
    rw [hentries, List.map_map] at hleaves
    rw [hcomplete.sources_eq hleaves]
    refine .of_eq (List.map_congr_left fun m hm => ?_)
    obtain ⟨code, htext⟩ := hadds.exists_text m hm
    rw [hproper.path_eq hm, htext]
    rfl

/-! ### A folder with an index, and one with a clash -/

theorem regular_empty : Regular {} :=
  (prepared_of_checks (by decide) (by decide) (by decide)).toRegular

theorem exists_readFolder_of_loadLibrary [Manifest.Reader] {root : Folder} {folder : Route}
    {plugins : List Plugin} {s s' : Store} {p : LibraryId × Manifest}
    (h : loadLibrary root folder plugins s = (.ok p, s')) :
    ∃ t, root.readFolder folder = .ok t := by
  obtain ⟨t, -, -, ht, -⟩ := (ends_loadLibrary root folder plugins s).of_eq_ok h
  exact ⟨t, ht⟩

def grainText : Text := "name: grain\n".toList

/-- Reads the manifest with that text. -/
abbrev grainReader : Manifest.Reader where
  value f :=
    match f.text with
    | .ok t =>
      if t = grainText then .ok (.mapping [(.text "name".toList, .text "grain".toList)])
      else .error (.malformed "another text".toList)
    | .error _ => .error .notText

/-- What comes of loading the folder `noise`. -/
def loadNoise (root : Folder) : Except Fault (LibraryId × Manifest) × Store :=
  @loadLibrary grainReader root ["noise".toList] [] {}

def noiseFiles : Folder := .ofFiles
  [(["noise".toList, "index.glsl".toList], some (.ofText "float n() { return 0.0; }".toList)),
    (["noise".toList, "library.yaml".toList], some (.ofText grainText)),
    (["noise".toList, "simplex".toList, "3d.glsl".toList],
      some (.ofText "float s() { return 1.0; }".toList))]

theorem sources_loaded_noise : Regular {} ∧ ∃ id manifest t s',
    loadNoise noiseFiles = (.ok (id, manifest), s') ∧ manifest.name = "grain".toList ∧
      noiseFiles.readFolder ["noise".toList] = .ok t ∧ t.Proper ∧
        (∀ r ∈ [Request.compile id], r.InRange s'.libraries.size) ∧
          (s'.after [.compile id]).IsCompiled id ∧
            (((s'.after [.compile id]).sources id).Perm
              (t.moduleFiles.map fun m => (m.path manifest.name, m.file.text)) ↔ ¬ t.Clashes) ∧
            t.moduleFiles.map (·.path manifest.name) =
              ["grain".toList, "grain/simplex/3d".toList] := by
  let reader := grainReader
  have hproper : ∀ t ∈ (noiseFiles.readFolder ["noise".toList]).toOption, t.Proper ∧
      t.moduleFiles.map (·.path "grain".toList) =
        ["grain".toList, "grain/simplex/3d".toList] := by
    decide +kernel
  have hchecks : (loadNoise noiseFiles).1.isOk = true ∧
      ∀ p ∈ (loadNoise noiseFiles).1.toOption, p.2.name = "grain".toList ∧
        p.1 < (loadNoise noiseFiles).2.libraries.size ∧
          (((loadNoise noiseFiles).2.after [.compile p.1]).library p.1).isCompiled = true := by
    decide +kernel
  obtain ⟨hok, hall⟩ := hchecks
  obtain ⟨⟨id, manifest⟩, s', hload⟩ := exists_eq_ok hok
  obtain ⟨t, ht⟩ := exists_readFolder_of_loadLibrary hload
  rw [hload] at hall
  rw [ht] at hproper
  obtain ⟨hname, hlt, hid⟩ := hall (id, manifest) rfl
  obtain ⟨hproper, hfiles⟩ := hproper t rfl
  have hrs : ∀ r ∈ [Request.compile id], r.InRange s'.libraries.size :=
    List.forall_mem_singleton.2 hlt
  refine ⟨regular_empty, id, manifest, t, s', hload, hname, ht, hproper, hrs, hid,
    sources_loaded regular_empty hload ht hproper hrs hid, ?_⟩
  rw [show manifest.name = _ from hname]
  exact hfiles

def clashingFiles : Folder := .ofFiles
  [(["noise".toList, "value.glsl".toList], some (.ofText "float v() { return 1.0; }".toList)),
    (["noise".toList, "value".toList, "fine.glsl".toList],
      some (.ofText "float w() { return 2.0; }".toList))]

/-- The file takes the place of the folder beside it, and the module in there is missing. -/
theorem sources_loaded_clash : ∃ id manifest t s',
    loadNoise clashingFiles = (.ok (id, manifest), s') ∧
      clashingFiles.readFolder ["noise".toList] = .ok t ∧ t.Proper ∧
        (s'.after [.compile id]).IsCompiled id ∧
          ((s'.after [.compile id]).sources id).map Prod.fst = ["noise/value".toList] ∧
            t.moduleFiles.map (·.path manifest.name) =
              ["noise/value/fine".toList, "noise/value".toList] ∧
                ¬ ((s'.after [.compile id]).sources id).Perm
                  (t.moduleFiles.map fun m => (m.path manifest.name, m.file.text)) := by
  have hproper : ∀ t ∈ (clashingFiles.readFolder ["noise".toList]).toOption, t.Proper ∧
      t.moduleFiles.map (·.path "noise".toList) =
        ["noise/value/fine".toList, "noise/value".toList] := by decide +kernel
  let reader := grainReader
  have hchecks : (loadNoise clashingFiles).1.isOk = true ∧
      ∀ p ∈ (loadNoise clashingFiles).1.toOption,
        p.2.name = "noise".toList ∧
          (((loadNoise clashingFiles).2.after [.compile p.1]).library
            p.1).isCompiled = true ∧
          (((loadNoise clashingFiles).2.after [.compile p.1]).sources
            p.1).map Prod.fst = ["noise/value".toList] := by decide +kernel
  obtain ⟨hok, hall⟩ := hchecks
  obtain ⟨⟨id, manifest⟩, s', hload⟩ := exists_eq_ok hok
  obtain ⟨t, ht⟩ := exists_readFolder_of_loadLibrary hload
  rw [hload] at hall
  rw [ht] at hproper
  obtain ⟨hname, hid, hsources⟩ := hall (id, manifest) rfl
  obtain ⟨hproper, hfiles⟩ := hproper t rfl
  rw [← hname] at hfiles
  refine ⟨id, manifest, t, s', hload, ht, hproper, hid, hsources, hfiles, fun hperm => ?_⟩
  have hpaths := (hperm.map Prod.fst).length_eq
  rw [hsources, List.map_map] at hpaths
  have hlength := congrArg List.length hfiles
  simp at hpaths hlength
  omega

end ShaderLink
