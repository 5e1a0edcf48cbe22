import ShaderLink.Proofs.Atomicity

/-!
# Filling a library

Compiling gives a library one module for each leaf of its definition, whatever plugins there are and
whatever other libraries are compiled on the way (`Store.Filled`).  Nothing is asked of the leaves
but that the modules among them exist: of two leaves with one path the last one counts.  The
libraries that were compiled before stay as they are (`Store.Builds`); `building_compileAt` shows
this for every depth, by the rule `ends_compileAt_succ` for what happens inside a compilation.
-/

namespace ShaderLink

open Store LinkM

/-! ## A rule for compiling -/

namespace Store

/-- The store in which a library counts as compiled, before its modules are made. -/
def begun (s : Store) (id : LibraryId) : Store :=
  { s with
    libraries := s.libraries.modify id fun l => { l with isCompiled := true }
    notices := s.notices ++ [.compiling (s.library id).name] }

/-- The store in which the compilation of a library is given up. -/
def givenUp (s : Store) (id : LibraryId) : Store :=
  { s with
    libraries := s.libraries.modify id fun l => { l with modules := [], isCompiled := false } }

variable {M : ModuleId → Prop} (s : Store) (id : LibraryId)

theorem library_begun : (s.begun id).library id =
    if id < s.libraries.size then { s.library id with isCompiled := true } else s.library id := by
  refine (library_modify s id id fun l => { l with isCompiled := true }).trans ?_
  simp only [true_and]

theorem library_givenUp : (s.givenUp id).library id = if id < s.libraries.size then
    { s.library id with modules := [], isCompiled := false } else s.library id := by
  refine (library_modify s id id fun l => { l with modules := [], isCompiled := false }).trans ?_
  simp only [true_and]

theorem spares_begun : Spares (fun j => j ≠ id) M s (s.begun id) := by
  have hchange : Spares (fun j => j ≠ id) M s
      { s with libraries := s.libraries.modify id fun l => { l with isCompiled := true } } :=
    spares_changeLibrary (by simp) rfl
  exact hchange.trans (called_note _).spares

theorem spares_givenUp : Spares (fun j => j ≠ id) M s (s.givenUp id) :=
  spares_changeLibrary (by simp) rfl

end Store

section Rule

variable {s : Store} {id : LibraryId} {depth : Nat} {Q E J : Store → Prop}
  {I : List ModuleId → Store → Prop}

/-- What holds once the modules of a library are made, and while plugins are applied to one after
the other, holds when it is compiled. -/
theorem ends_compileAt_succ (hdone : s.IsCompiled id → Q s)
    (hmake : ¬ s.IsCompiled id → Ends (fun _ s₁ => I (s₁.library id).modules.values s₁) J
      (makeModules id (s.begun id)))
    (happly : ¬ s.IsCompiled id → ∀ i todo s₁, I (i :: todo) s₁ →
      Ends (fun _ => I todo) J (applyPluginsWith (reachWith (compileAt depth)) i s₁))
    (hgiveUp : ¬ s.IsCompiled id → ∀ s₁, J s₁ → E (s₁.givenUp id))
    (hfinish : ¬ s.IsCompiled id → ∀ s₁ n, I [] s₁ → Q { s₁ with notices := s₁.notices ++ [n] }) :
    Ends (fun _ => Q) E (compileAt (depth + 1) id s) := by
  unfold compileAt
  apply ends_bind.2
  apply ends_get.2
  by_cases hid : (s.library id).isCompiled = true
  · rw [if_pos hid]
    exact hdone hid
  rw [if_neg hid]
  apply ends_bind.2
  apply ends_modify.2
  apply ends_bind.2
  apply ends_modify.2
  refine (ends_tryCatch (Q := fun _ => I []) ?_).bind fun _ s₁ h₁ => ?_
  · refine Ends.mono (E := J) ((hmake hid).bind fun _ s₁ h₁ => ?_) (fun _ _ h => h)
      fun s₁ h₁ fault => ?_
    · apply ends_bind.2
      apply ends_get.2
      exact ends_forM_rest (fun i todo s₂ h₂ => happly hid i todo s₂ h₂) h₁
    · apply ends_bind.2
      apply ends_modify.2
      exact hgiveUp hid s₁ h₁
  · apply ends_bind.2
    apply ends_get.2
    apply ends_modify.2
    exact hfinish hid s₁ _ h₁

end Rule

/-! ## Declarations stay in their modules -/

/-- If the plugin is given declarations of one path, then it leaves only such declarations. -/
def Plugin.KeepsPaths (p : Plugin) : Prop :=
  ∀ isShader (seen : Surroundings) ds, (∀ d ∈ ds, d.path = seen.path) →
    (∀ d ∈ (p.transform isShader seen ds).edited, d.path = seen.path) ∧
      ∀ new, (p.transform isShader seen ds).replacement = .ok (some new) →
        ∀ d ∈ new, d.path = seen.path

namespace Module

/-- All declarations of the module have its path. -/
def KeepsPath (m : Module) : Prop := ∀ d ∈ m.declarations, d.path = m.path

end Module

section Paths

variable {m m' : Module} {plugins : List Plugin} {found ds ds' : List Declaration} {calls : Calls}
  {path : Text} {isShader : Bool}

theorem forall_path_of_forall₂ {R : Declaration → Declaration → Prop}
    (hR : ∀ d d', R d d' → d'.path = d.path) (h : List.Forall₂ R ds ds')
    (hds : ∀ d ∈ ds, d.path = path) : ∀ d ∈ ds', d.path = path := by
  induction h with
  | nil => exact nofun
  | cons hd _ ih =>
    rw [List.forall_mem_cons] at hds
    exact List.forall_mem_cons.2 ⟨(hR _ _ hd).trans hds.1, ih hds.2⟩

theorem Numbers.path_eq {d d' : Declaration} (h : Numbers d d') : d'.path = d.path := by
  rw [h.1]

theorem Plugin.Transform.forall_path {seen seen' : Surroundings}
    (h : Plugin.Transform isShader plugins seen ds calls seen' ds')
    (hplugins : ∀ p ∈ plugins, p.KeepsPaths) (hds : ∀ d ∈ ds, d.path = seen.path) :
    ∀ d ∈ ds', d.path = seen.path := by
  induction h with
  | nil => exact hds
  | @kept p ps seen seen' ds edited ds' calls ht _ ih =>
    rw [List.forall_mem_cons] at hplugins
    obtain ⟨hedited, -⟩ := hplugins.1 isShader seen ds hds
    rw [ht] at hedited
    exact ih hplugins.2 hedited
  | @replaced p ps seen seen' ds edited new numbered ds' calls ht hnew _ ih =>
    rw [List.forall_mem_cons] at hplugins
    obtain ⟨-, hreplaced⟩ := hplugins.1 isShader seen ds hds
    rw [ht] at hreplaced
    exact ih hplugins.2
      (forall_path_of_forall₂ (fun _ _ => Numbers.path_eq) hnew (hreplaced new rfl))

theorem Plugin.Rewrites.forall_path {p : Plugin} {n : Nat} {seen seen' : Surroundings}
    (h : p.Rewrites isShader n seen ds calls seen' ds') (hds : ∀ d ∈ ds, d.path = path) :
    ∀ d ∈ ds', d.path = path := by
  induction h with
  | done => exact hds
  | @step n seen seen' ds ds' d definition calls hd _ _ ih =>
    refine ih (List.forall_mem_map.2 fun e he => ?_)
    rcases e.latest_singleton { d with definition } with heq | heq <;> rw [heq]
    · exact hds e he
    · exact hds d (List.mem_of_getElem? hd)

theorem Plugin.Postprocess.forall_path {seen seen' : Surroundings}
    (h : Plugin.Postprocess isShader plugins seen ds calls seen' ds')
    (hds : ∀ d ∈ ds, d.path = path) : ∀ d ∈ ds', d.path = path := by
  induction h with
  | nil => exact hds
  | cons h _ ih => exact ih (h.forall_path hds)

theorem Module.ReadWith.keepsPath (h : m.ReadWith plugins calls) : m.KeepsPath := by
  obtain ⟨code, o, -, hread, hnumbers, -⟩ := h
  exact forall_path_of_forall₂ (fun _ _ => Numbers.path_eq) hnumbers fun d hd =>
    ((readAt_of_read hread).declarations d hd).path_eq

theorem Module.ReadWith.firstSegment_ne_nil (h : m.ReadWith plugins calls) :
    firstSegment m.path ≠ [] := by
  obtain ⟨code, o, -, hread, -⟩ := h
  exact firstSegment_ne_nil_of_read hread

theorem Module.AppliedTo.keepsPath (h : m.AppliedTo plugins found calls m')
    (hplugins : ∀ p ∈ plugins, p.KeepsPaths) (hm : m.KeepsPath) : m'.KeepsPath := by
  obtain ⟨seen, ds, seen', ds', transforms, postprocesses, htransform, hpostprocess, -, rfl⟩ := h
  exact hpostprocess.forall_path (htransform.forall_path hplugins hm)

end Paths

/-! ## Filled libraries -/

namespace Store

/-- What is true of every store: the modules that are leaves of libraries exist, and libraries that
are not compiled have no modules. -/
structure Orderly (s : Store) : Prop where
  built : ∀ id i, s.IsLeaf id i → i < s.modules.size
  idle : ∀ id, ¬ s.IsCompiled id → (s.library id).modules = []

/-- The module belongs to the library, and so do its declarations, if the plugins of the library do
not bring in others. -/
structure Own (s : Store) (id : LibraryId) (i : ModuleId) : Prop where
  owner : (s.module i).scope.owner = .library id
  named : firstSegment (s.module i).path ≠ []
  keepsPath : (∀ p ∈ (s.library id).plugins, p.KeepsPaths) → (s.module i).KeepsPath

/-- The library has a module for each leaf; of leaves with one path the last one counts.  Modules
that are no leaves themselves are its own. -/
structure Filled (s : Store) (id : LibraryId) (ids : List ModuleId) : Prop where
  modules : (s.library id).modules = Table.ofList (((s.library id).leaves.map Prod.fst).zip ids)
  fills : List.Forall₂ s.Fills (s.library id).leaves ids
  own : ∀ i ∈ ids, (∀ j, ¬ s.IsLeaf j i) → s.Own id i

/-- The modules were made after `s`, or are leaves of the library. -/
def Allots (s : Store) (id : LibraryId) (ids : List ModuleId) : Prop :=
  ∀ i ∈ ids, s.IsLeaf id i ∨ s.modules.size ≤ i

/-- Compiled libraries stay as they are, and those that were compiled since then are filled. -/
structure Builds (skip : LibraryId → Prop) (s s' : Store) : Prop where
  frame : Frame s s'
  orderly : s'.Orderly
  filled : ∀ id, ¬ skip id → s'.IsCompiled id → s.IsCompiled id ∨
    ∃ ids, s'.Filled id ids ∧ s.Allots id ids

variable {L skip : LibraryId → Prop} {M : ModuleId → Prop} {s s' s'' : Store} {id : LibraryId}
  {i : ModuleId} {ids : List ModuleId} {calls : Calls}

theorem Orderly.of_spares (hs : s.Orderly) (h : Spares L M s s')
    (hidle : ∀ id, ¬ s'.IsCompiled id → (s'.library id).modules = []) : s'.Orderly where
  built id i hi := (hs.built id i (h.isLeaf ▸ hi)).trans_le h.modules_size
  idle := hidle

theorem Orderly.of_libraries (hs : s.Orderly) (h : Spares (fun _ => True) M s s') :
    s'.Orderly := by
  refine hs.of_spares h fun id hid => ?_
  rw [h.libraries id trivial]
  rw [IsCompiled, h.libraries id trivial] at hid
  exact hs.idle id hid

/-- A library that is compiled, or does not exist, stays as it is. -/
theorem Frame.library_eq (h : Frame s s') (hid : s.IsCompiled id ∨ s.libraries.size ≤ id) :
    s'.library id = s.library id := by
  rcases hid with hid | hid
  · exact h.libraries id hid
  · rw [library_of_size_le s hid, library_of_size_le s' (h.size ▸ hid)]

theorem Filled.lt_size (h : s.Filled id ids) (hi : i ∈ ids) : i < s.modules.size := by
  obtain ⟨leaf, -, hfills⟩ := exists_of_forall₂_right h.fills hi
  exact hfills.lt_size

/-- A library stays filled if it is not touched, nor those of its modules that are its own. -/
theorem Filled.of_spares (h : s.Filled id ids) (hs : Spares L M s s')
    (hlibrary : s'.library id = s.library id)
    (hown : ∀ i ∈ ids, (∀ j, ¬ s.IsLeaf j i) → s.Own id i → s'.Own id i) : s'.Filled id ids := by
  refine ⟨?_, ?_, fun i hi hleaf => ?_⟩
  · rw [hlibrary]
    exact h.modules
  · rw [hlibrary]
    exact h.fills.imp fun _ _ hfills => hfills.of_spares hs
  · rw [hs.isLeaf] at hleaf
    exact hown i hi hleaf (h.own i hi hleaf)

theorem Own.of_eq (h : s.Own id i) (hplugins : (s'.library id).plugins = (s.library id).plugins)
    (hmodule : s'.module i = s.module i) : s'.Own id i where
  owner := hmodule ▸ h.owner
  named := hmodule ▸ h.named
  keepsPath := by
    rw [hplugins, hmodule]
    exact h.keepsPath

theorem Filled.of_frame (h : s.Filled id ids) (hs : Frame s s')
    (hid : s.IsCompiled id ∨ s.libraries.size ≤ id) : s'.Filled id ids := by
  refine h.of_spares hs (hs.library_eq hid) fun i hi hleaf hown => ?_
  refine hown.of_eq (hs.plugins id) (hs.modules i (h.lt_size hi) ?_)
  rintro ⟨j, -, hj⟩
  exact hleaf j hj

namespace Builds

theorem refl (hs : s.Orderly) : Builds skip s s where
  frame := .refl _ _ s
  orderly := hs
  filled _ _ hid := Or.inl hid

theorem of_same (h : Frame s s') (hs' : s'.Orderly)
    (hcompiled : ∀ id, ¬ skip id → s'.IsCompiled id → s.IsCompiled id) : Builds skip s s' where
  frame := h
  orderly := hs'
  filled id hskip hid := Or.inl (hcompiled id hskip hid)

theorem trans (h : Builds skip s s') (h' : Builds (fun _ => False) s' s'') :
    Builds skip s s'' where
  frame := h.frame.trans h'.frame
  orderly := h'.orderly
  filled id hskip hid := by
    rcases h'.filled id not_false hid with hid' | ⟨ids, hfilled, hallots⟩
    · refine (h.filled id hskip hid').imp_right ?_
      rintro ⟨ids, hfilled, hallots⟩
      exact ⟨ids, hfilled.of_frame h'.frame (Or.inl hid'), hallots⟩
    · refine Or.inr ⟨ids, hfilled, fun i hi => ?_⟩
      exact (hallots i hi).imp (fun hleaf => h.frame.isLeaf ▸ hleaf) h.frame.modules_size.trans

theorem called (h : Builds skip s s') (hs : Called calls s' s'') : Builds skip s s'' := by
  have hspares : Spares (fun _ => True) (fun _ => True) s' s'' := hs.spares
  refine ⟨h.frame.trans (hspares.mono (by simp) (by simp)), h.orderly.of_libraries hspares,
    fun id hskip hid => ?_⟩
  rw [IsCompiled, hspares.libraries id trivial] at hid
  refine (h.filled id hskip hid).imp_right ?_
  rintro ⟨ids, hfilled, hallots⟩
  refine ⟨ids, hfilled.of_spares hspares (hspares.libraries id trivial) fun i hi _ hown => ?_,
    hallots⟩
  exact hown.of_eq (hspares.plugins id) (hspares.modules i (hfilled.lt_size hi) trivial)

/-- Working on a module touches no library that was filled meanwhile, unless it belongs to it. -/
theorem alters (h : Builds skip s s') (hs : Alters i calls s' s'')
    (hi : s.IsFree i ∨ s.modules.size ≤ i)
    (howner : (∀ j, ¬ s'.IsLeaf j i) → ∀ j, ¬ skip j → (s'.module i).scope.owner ≠ .library j) :
    Builds skip s s'' := by
  have hspares : Spares (fun _ => True) (fun j => j ≠ i) s' s'' := hs.spares (by simp)
  refine ⟨h.frame.alters hs fun hnot => hi.resolve_left hnot, h.orderly.of_libraries hspares,
    fun j hj hcompiled => ?_⟩
  rw [IsCompiled, hspares.libraries j trivial] at hcompiled
  refine (h.filled j hj hcompiled).imp_right ?_
  rintro ⟨ids, hfilled, hallots⟩
  refine ⟨ids, hfilled.of_spares hspares (hspares.libraries j trivial) fun k hk hleaf hown => ?_,
    hallots⟩
  refine hown.of_eq (hspares.plugins j) (hs.others k ?_)
  rintro rfl
  exact howner hleaf j hj hown.owner

end Builds

end Store

/-! ## Making the modules -/

/-- A library that does not exist has no leaves. -/
theorem Store.lt_size_of_mem_leaves {s : Store} {id : LibraryId} {leaf : Text × Source}
    (h : leaf ∈ (s.library id).leaves) : id < s.libraries.size := by
  by_contra hid
  rw [library_of_size_le s (not_lt.1 hid)] at h
  exact List.not_mem_nil h

/-- What is done for one leaf: its module is new, or it is the leaf itself. -/
structure Store.Lodged (id : LibraryId) (leaf : Text × Source) (i : ModuleId) (s s' : Store) :
    Prop where
  spares : Spares (fun j => j ≠ id) (fun j => ¬ s.IsLeaf id j) s s'
  library : s'.library id =
    { s.library id with modules := (s.library id).modules.insert leaf.1 i }
  fills : s'.Fills leaf i
  new : leaf.2 = .built i ∨ s.modules.size ≤ i ∧ s'.Own id i

/-- What was done once the modules of some leaves are made. -/
structure Store.LodgedAll (id : LibraryId) (leaves : List (Text × Source)) (ids : List ModuleId)
    (s s' : Store) : Prop where
  spares : Spares (fun j => j ≠ id) (fun j => ¬ s.IsLeaf id j) s s'
  library : s'.library id =
    { s.library id with modules := Table.ofList ((leaves.map Prod.fst).zip ids) }
  fills : List.Forall₂ s'.Fills leaves ids
  new : ∀ i ∈ ids, s.IsLeaf id i ∨ s.modules.size ≤ i ∧ s'.Own id i

section Make

variable {s s' s'' : Store} {id : LibraryId} {scope : Scope} {leaves : List (Text × Source)}
  {leaf : Text × Source} {ids : List ModuleId} {i : ModuleId}

/-- Entering a module in the library. -/
theorem Store.Lodged.enter {s₁ : Store} (hid : id < s.libraries.size)
    (hs : Spares (fun _ => True) (fun j => ¬ s.IsLeaf id j) s s₁) (hfills : s₁.Fills leaf i)
    (hnew : leaf.2 = .built i ∨ s.modules.size ≤ i ∧ s₁.Own id i) :
    Lodged id leaf i s { s₁ with libraries := s₁.libraries.modify id fun l =>
      { l with modules := l.modules.insert leaf.1 i } } := by
  have hchange : Spares (fun j => j ≠ id) (fun j => ¬ s.IsLeaf id j) s₁ { s₁ with
      libraries := s₁.libraries.modify id fun l =>
        { l with modules := l.modules.insert leaf.1 i } } := spares_changeLibrary (by simp) rfl
  refine ⟨(hs.mono (by simp) (by simp)).trans hchange, ?_, hfills.of_spares hchange, ?_⟩
  · rw [library_modify, if_pos ⟨rfl, hs.size ▸ hid⟩, hs.libraries id trivial]
  · exact hnew.imp_right fun h => ⟨h.1, h.2.of_eq (hchange.plugins id) rfl⟩

theorem ends_placeModule_placed (hbuilt : ∀ i, s.IsLeaf id i → i < s.modules.size)
    (howner : scope.owner = .library id) (hleaf : leaf ∈ (s.library id).leaves) :
    Ends (fun _ s' => ∃ i, Lodged id leaf i s s')
      (Spares (fun _ => True) (fun j => ¬ s.IsLeaf id j) s)
      (placeModule id scope leaf.1 leaf.2 s) := by
  have hid := lt_size_of_mem_leaves hleaf
  have hplugins : s.pluginsOf scope = (s.library id).plugins := by
    rw [pluginsOf, howner]
  obtain ⟨path, source⟩ := leaf
  cases source with
  | code t =>
    unfold placeModule
    refine ((ends_makeModule_calls path t scope false).mono (fun i s₁ => ?_) fun s₁ => ?_) |>
      ends_bind.2
    · rintro ⟨rfl, calls, s₂, m, hs₂, rfl, hpath, hsource, hm, hread⟩
      have hspares : Spares (fun _ => True) (fun j => ¬ s.IsLeaf id j) s
          { s₂ with modules := s₂.modules.push m } := Spares.trans hs₂.spares (spares_push m)
      have hsize : s₂.modules.size = s.modules.size := by rw [hs₂.modules]
      have hmodule : Store.module { s₂ with modules := s₂.modules.push m } s.modules.size = m := by
        rw [module_push, if_pos hsize.symm]
      apply ends_modify.2
      refine ⟨_, Lodged.enter hid hspares ⟨?_, ?_, ?_⟩ (Or.inr ⟨le_rfl, ?_, ?_, fun _ => ?_⟩)⟩
      · rw [Array.size_push, hsize]
        exact Nat.lt_succ_self _
      · rw [hmodule, hpath]
      · rw [hmodule, hsource]
        exact Or.inl rfl
      · rw [hmodule, hm, howner]
      · rw [hmodule]
        exact hread.firstSegment_ne_nil
      · rw [hmodule]
        exact hread.keepsPath
    · rintro ⟨⟨calls, hs₁, -⟩, -⟩
      exact hs₁.spares
  | built i =>
    have hi : i < s.modules.size := hbuilt i ⟨path, hleaf⟩
    have hnot : ¬ ¬ s.IsLeaf id i := not_not.2 ⟨path, hleaf⟩
    unfold placeModule
    apply ends_bind.2
    apply ends_get.2
    by_cases hpath : (s.module i).path ≠ path
    · rw [if_pos hpath]
      exact .refl _ _ s
    rw [if_neg hpath]
    -- binding changes the module, or does nothing if it is in the scope already
    have hbind : Ends (fun _ s₁ => ∃ calls, Alters i calls s s₁)
        (fun s₁ => ∃ calls, Alters i calls s s₁) (bindModule i scope s) := by
      by_cases hserial : (s.module i).scope.serial = scope.serial
      · unfold bindModule
        apply ends_bind.2
        apply ends_get.2
        rw [if_pos hserial]
        exact ⟨[], .refl i s⟩
      · refine (ends_bindModule_calls hi hserial).mono (fun _ _ h => ?_) fun _ h => ?_
        · obtain ⟨calls, h, -⟩ := h
          exact ⟨calls, h⟩
        · obtain ⟨⟨calls, h, -⟩, -⟩ := h
          exact ⟨calls, h⟩
    refine ends_bind.2 (hbind.mono (fun _ s₁ => ?_) fun s₁ => ?_)
    · rintro ⟨calls, h₁⟩
      apply ends_modify.2
      refine ⟨i, Lodged.enter hid (h₁.spares hnot) ⟨?_, ?_, Or.inr rfl⟩ (Or.inl rfl)⟩
      · exact h₁.modules_size ▸ hi
      · rw [h₁.path, not_ne_iff.1 hpath]
    · rintro ⟨calls, h₁⟩
      exact h₁.spares hnot
  | unsupported sort => exact .refl _ _ s

theorem Store.LodgedAll.place (h : LodgedAll id leaves ids s s')
    (hbuilt : ∀ i, s.IsLeaf id i → i < s.modules.size)
    (hleaf : leaf ∈ (s.library id).leaves) (h' : Lodged id leaf i s' s'') :
    LodgedAll id (leaves ++ [leaf]) (ids ++ [i]) s s'' := by
  have hspares : Spares (fun j => j ≠ id) (fun j => ¬ s.IsLeaf id j) s' s'' := by
    rw [← h.spares.isLeaf]
    exact h'.spares
  refine ⟨h.spares.trans hspares, ?_, ?_, fun k hk => ?_⟩
  · rw [h'.library, h.library, List.map_append, List.zip_append]
    · simp [Table.ofList]
    · rw [List.length_map]
      exact h.fills.length_eq
  · exact List.rel_append (h.fills.imp fun _ _ hfills => hfills.of_spares hspares)
      (.cons h'.fills .nil)
  · rcases List.mem_append.1 hk with hk | hk
    · refine (h.new k hk).imp_right fun hnew => ⟨hnew.1, hnew.2.of_eq (hspares.plugins id) ?_⟩
      obtain ⟨leaf', -, hfills⟩ := exists_of_forall₂_right h.fills hk
      refine hspares.modules _ hfills.lt_size fun hold => ?_
      exact (hbuilt _ hold).not_ge hnew.1
    · obtain rfl := List.mem_singleton.1 hk
      refine h'.new.imp (fun hbuilt => ⟨leaf.1, ?_⟩) fun hnew => ?_
      · rwa [← hbuilt]
      · exact ⟨h.spares.modules_size.trans hnew.1, hnew.2⟩

/-- The modules of a library are made in the order of its leaves. -/
theorem ends_makeModules_placed (hbuilt : ∀ i, s.IsLeaf id i → i < s.modules.size)
    (hempty : (s.library id).modules = []) :
    Ends (fun _ s' => ∃ ids, LodgedAll id (s.library id).leaves ids s s')
      (fun s' => Spares (fun j => j ≠ id) (fun j => ¬ s.IsLeaf id j) s s' ∧
        (s'.library id).isCompiled = (s.library id).isCompiled)
      (makeModules id s) := by
  unfold makeModules
  apply ends_bind.2
  apply ends_get.2
  apply ends_bind.2
  apply ends_bind.2
  apply ends_get.2
  apply ends_bind.2
  apply ends_set.2
  apply ends_pure.2
  let scope : Scope := { serial := s.nextSerial, owner := .library id }
  let s₁ : Store := { s with nextSerial := s.nextSerial + 1 }
  have hfresh : Called [] s s₁ := ⟨quiet_fresh s, (List.append_nil _).symm⟩
  cases hdefinition : (s.library id).definition with
  | unusable => exact ⟨hfresh.spares, rfl⟩
  | tree t =>
    have hleaves : (t.leaves.map fun p => (Tree.pathOf (s.library id).name p.1, p.2)) =
        (s.library id).leaves := by
      rw [Library.leaves, hdefinition]
      rfl
    show Ends _ _ (t.forLeaves (placeModule id scope) (s.library id).name s₁)
    rw [Tree.forLeaves_eq_forM, hleaves]
    refine (ends_forM_rest (I := fun rest s' => ∃ leaves ids,
      (s.library id).leaves = leaves ++ rest ∧ LodgedAll id leaves ids s s') ?_ ?_).imp
        fun _ s' => ?_
    · rintro leaf rest s' ⟨leaves, ids, hrest, hplaced⟩
      have hleaf : leaf ∈ (s.library id).leaves := by simp [hrest]
      have hleaf' : leaf ∈ (s'.library id).leaves := by rwa [hplaced.spares.leaves]
      have hbuilt' : ∀ i, s'.IsLeaf id i → i < s'.modules.size := by
        rw [hplaced.spares.isLeaf]
        exact fun i hi => (hbuilt i hi).trans_le hplaced.spares.modules_size
      refine (ends_placeModule_placed hbuilt' rfl hleaf').mono (fun _ s'' => ?_) fun s'' h => ?_
      · rintro ⟨i, h⟩
        exact ⟨_, _, by simp [hrest], hplaced.place hbuilt hleaf h⟩
      · refine ⟨hplaced.spares.trans (h.mono (by simp) fun j _ hj => ?_), ?_⟩
        · rwa [hplaced.spares.isLeaf]
        · rw [h.libraries id trivial, hplaced.library]
    · refine ⟨[], [], rfl, hfresh.spares, ?_, .nil, by simp⟩
      show s.library id = { s.library id with modules := [] }
      rw [← hempty]
    · rintro ⟨leaves, ids, hleaves, hplaced⟩
      rw [List.append_nil] at hleaves
      exact ⟨ids, hleaves ▸ hplaced⟩

end Make

/-! ## Compiling -/

/-- Compiling fills the library, and all those that are compiled on the way. -/
def Building (compile : LibraryId → LinkM Unit) : Prop :=
  ∀ id (s : Store), s.Orderly →
    Ends (fun _ s' => Builds (fun _ => False) s s' ∧ (id < s.libraries.size → s'.IsCompiled id))
      (Builds (fun _ => False) s) (compile id s)

/-- The library is filled, and plugins are still to be applied to some of its modules. -/
structure Store.Equips (s : Store) (id : LibraryId) (todo : List ModuleId) (s' : Store) :
    Prop where
  builds : Builds (fun j => j = id) s s'
  compiled : s'.IsCompiled id ∨ s'.libraries.size ≤ id
  filled : ∃ ids, todo ⊆ ids ∧ s'.Filled id ids ∧ s.Allots id ids

section Compile

variable {compile : LibraryId → LinkM Unit} {skip : LibraryId → Prop} {s s₁ s₂ s' : Store}
  {id : LibraryId} {i : ModuleId} {ids todo : List ModuleId}

theorem ends_reachWith_builds (hcompile : Building compile) (hs : s.Orderly)
    (roots : List Declaration) (libraries : Table Text LibraryId) :
    Ends (fun _ => Builds (fun _ => False) s) (Builds (fun _ => False) s)
      (reachWith compile roots libraries s) := by
  unfold reachWith
  apply ends_bind.2
  apply ends_get.2
  refine ends_explore (I := fun st _ => Builds (fun _ => False) s st) (fun _ _ _ h _ => h) ?_
    (fun _ _ h _ => h) (fun _ _ h => h) (.refl hs)
  intro st r id h _
  exact (hcompile id st h.orderly).mono (fun _ _ h' => h.trans h'.1) fun _ h' => h.trans h'

namespace Store

/-- What is done for a library that counts as compiled. -/
theorem Builds.of_begun (hs : s.Orderly) (hid : ¬ s.IsCompiled id)
    (h : Spares (fun j => j ≠ id) (fun j => ¬ s.IsLeaf id j) s s')
    (hcompiled : s'.IsCompiled id ∨ s'.libraries.size ≤ id) : Builds (fun j => j = id) s s' := by
  refine .of_same (h.frame hid) (hs.of_spares h fun j hj => ?_) fun j hne hj => ?_
  · by_cases hne : j = id
    · subst hne
      rw [library_of_size_le s' (hcompiled.resolve_left hj)]
    · rw [h.libraries j hne]
      rw [IsCompiled, h.libraries j hne] at hj
      exact hs.idle j hj
  · rwa [IsCompiled, h.libraries j hne] at hj

/-- A library counts as compiled before its modules are made. -/
theorem isCompiled_begun (s : Store) (id : LibraryId) :
    (s.begun id).IsCompiled id ∨ s.libraries.size ≤ id := by
  refine (lt_or_ge id s.libraries.size).imp (fun hlt => ?_) fun h => h
  rw [IsCompiled, library_begun, if_pos hlt]

/-- What was made for a library before plugins are applied. -/
theorem LodgedAll.equips (h : LodgedAll id (s.library id).leaves ids (s.begun id) s')
    (hs : s.Orderly) (hid : ¬ s.IsCompiled id) :
    s.Equips id (s'.library id).modules.values s' := by
  have hbegun : Spares (fun j => j ≠ id) (fun j => ¬ s.IsLeaf id j) s (s.begun id) :=
    spares_begun s id
  have hspares : Spares (fun j => j ≠ id) (fun j => ¬ s.IsLeaf id j) s s' :=
    hbegun.trans (hbegun.isLeaf ▸ h.spares)
  have hleaves := hspares.leaves id
  have hcompiled : s'.IsCompiled id ∨ s'.libraries.size ≤ id := by
    rw [IsCompiled, h.library, hspares.size]
    exact isCompiled_begun s id
  refine ⟨.of_begun hs hid hspares hcompiled, hcompiled, ids, fun i hi => ?_,
    ⟨?_, hleaves ▸ h.fills, fun i hi hleaf => ?_⟩, fun i hi => ?_⟩
  · rw [h.library] at hi
    obtain ⟨p, hp, rfl⟩ := List.mem_map.1 hi
    exact (List.of_mem_zip (Table.mem_of_mem_ofList hp)).2
  · rw [hleaves, h.library]
  · refine ((h.new i hi).resolve_left ?_).2
    rw [← h.spares.isLeaf]
    exact hleaf id
  · refine (h.new i hi).imp (fun hleaf => ?_) fun hnew => hbegun.modules_size.trans hnew.1
    rwa [hbegun.isLeaf] at hleaf

namespace Equips

variable {calls : Calls} {found : List Declaration}

/-- What is compiled while a module is searched for what it needs. -/
theorem trans (h : s.Equips id todo s₁) (h' : Builds (fun _ => False) s₁ s') :
    s.Equips id todo s' := by
  obtain ⟨ids, htodo, hfilled, hallots⟩ := h.filled
  refine ⟨h.builds.trans h', ?_, ids, htodo, hfilled.of_frame h'.frame h.compiled, hallots⟩
  rw [IsCompiled, h'.frame.library_eq h.compiled, h'.frame.size]
  exact h.compiled

/-- A module of the library is changed; nothing else is. -/
theorem builds_alters (h : s.Equips id todo s₁) (hid : ¬ s.IsCompiled id) (hi : i ∈ todo)
    (ha : Alters i calls s₁ s') : Builds (fun j => j = id) s s' := by
  obtain ⟨ids, htodo, hfilled, hallots⟩ := h.filled
  refine h.builds.alters ha ?_ fun hleaf j hj howner => hj ?_
  · exact (hallots i (htodo hi)).imp_left fun hleaf => ⟨id, hid, hleaf⟩
  · exact Owner.library.inj (howner.symm.trans (hfilled.own i (htodo hi) hleaf).owner)

theorem mono {todo' : List ModuleId} (h : s.Equips id todo s') (htodo : todo' ⊆ todo) :
    s.Equips id todo' s' := by
  obtain ⟨ids, hsubset, hfilled, hallots⟩ := h.filled
  exact ⟨h.builds, h.compiled, ids, List.Subset.trans htodo hsubset, hfilled, hallots⟩

/-- The plugins of the library are applied to a module, once all it needs is compiled. -/
theorem apply (h : s.Equips id todo s₁) (hid : ¬ s.IsCompiled id) (hi : i ∈ todo)
    (hreach : Builds (fun _ => False) s₁ s₂) (ha : Alters i calls s₂ s')
    (happlied : (s₂.module i).AppliedTo (s₁.pluginsOf (s₁.module i).scope) found calls
      (s'.module i)) : s.Equips id todo s' := by
  have hspares : Spares (fun _ => True) (fun j => j ≠ i) s₂ s' := ha.spares (by simp)
  have hlibrary : s'.library id = s₂.library id := hspares.libraries id trivial
  have h₂ := h.trans hreach
  obtain ⟨ids, htodo, hfilled, hallots⟩ := h.filled
  have hfilled₂ := hfilled.of_frame hreach.frame h.compiled
  refine ⟨h₂.builds_alters hid hi ha, ?_, ids, htodo,
    hfilled₂.of_spares hspares hlibrary fun k hk hleaf hown => ?_, hallots⟩
  · rw [IsCompiled, hlibrary, hspares.size]
    exact h₂.compiled
  by_cases hki : k = i
  · subst hki
    rw [hreach.frame.isLeaf] at hleaf
    have hpluginsOf : s₁.pluginsOf (s₁.module k).scope = (s₂.library id).plugins := by
      rw [pluginsOf, (hfilled.own k hk hleaf).owner]
      exact (hreach.frame.plugins id).symm
    rw [hpluginsOf] at happlied
    refine ⟨?_, ?_, fun hplugins => ?_⟩
    · rw [happlied.kept.2.2]
      exact hown.owner
    · rw [ha.path]
      exact hown.named
    · rw [hspares.plugins] at hplugins
      exact happlied.keepsPath hplugins (hown.keepsPath hplugins)
  · exact hown.of_eq (hspares.plugins id) (ha.others k hki)

/-- The library counts as filled once it is finished. -/
theorem finish (h : s.Equips id todo s') :
    Builds (fun _ => False) s s' where
  frame := h.builds.frame
  orderly := h.builds.orderly
  filled j _ hj := by
    by_cases hne : j = id
    · obtain ⟨ids, -, hfilled, hallots⟩ := h.filled
      exact Or.inr ⟨ids, hne ▸ hfilled, hne ▸ hallots⟩
    · exact h.builds.filled j hne hj

end Equips

/-- A library that is given up is not compiled, and the others stay filled. -/
theorem Builds.giveUp (h : Builds (fun j => j = id) s s₁) (hid : ¬ s.IsCompiled id) :
    Builds (fun _ => False) s (s₁.givenUp id) := by
  have hspares : Spares (fun j => j ≠ id) (fun _ => True) s₁ (s₁.givenUp id) := spares_givenUp s₁ id
  have hempty : ¬ (s₁.givenUp id).IsCompiled id ∧ ((s₁.givenUp id).library id).modules = [] := by
    rw [IsCompiled, library_givenUp]
    split
    · simp
    · rename_i hlt
      rw [library_of_size_le s₁ (not_lt.1 hlt)]
      simp
  refine ⟨Spares.trans h.frame (hspares.mono (fun j hj => ?_) fun _ _ _ => trivial),
    h.orderly.of_spares hspares fun j hj => ?_, fun j _ hj => ?_⟩
  · rintro rfl
    exact hid hj
  · by_cases hne : j = id
    · exact hne ▸ hempty.2
    · rw [hspares.libraries j hne]
      rw [IsCompiled, hspares.libraries j hne] at hj
      exact h.orderly.idle j hj
  · have hne : j ≠ id := fun heq => hempty.1 (heq ▸ hj)
    rw [IsCompiled, hspares.libraries j hne] at hj
    refine (h.filled j hne hj).imp_right ?_
    rintro ⟨ids, hfilled, hallots⟩
    refine ⟨ids, hfilled.of_spares hspares (hspares.libraries j hne) fun i hi _ hown => ?_, hallots⟩
    exact hown.of_eq (hspares.plugins j) (hspares.modules i (hfilled.lt_size hi) trivial)

end Store

/-- Making the modules of a library that counts as compiled. -/
theorem ends_makeModules_equips (hs : s.Orderly) (hid : ¬ s.IsCompiled id) :
    Ends (fun _ s' => s.Equips id (s'.library id).modules.values s') (Builds (fun j => j = id) s)
      (makeModules id (s.begun id)) := by
  have hbegun : Spares (fun j => j ≠ id) (fun j => ¬ s.IsLeaf id j) s (s.begun id) :=
    spares_begun s id
  have hempty : ((s.begun id).library id).modules = [] := by
    rw [library_begun]
    split <;> exact hs.idle id hid
  refine (ends_makeModules_placed (fun i hi => ?_) hempty).mono (fun _ s₁ => ?_) fun s₁ => ?_
  · rw [hbegun.isLeaf] at hi
    exact (hs.built id i hi).trans_le hbegun.modules_size
  · rintro ⟨ids, h⟩
    rw [hbegun.leaves] at h
    exact h.equips hs hid
  · rintro ⟨h, hcompiled⟩
    have hspares := hbegun.trans (hbegun.isLeaf ▸ h)
    refine .of_begun hs hid hspares ?_
    rw [IsCompiled, hcompiled, hspares.size]
    exact isCompiled_begun s id

/-- Applying plugins to the next module. -/
theorem ends_applyPluginsWith_equips (hcompile : Building compile) (hid : ¬ s.IsCompiled id)
    (h : s.Equips id (i :: todo) s₁) :
    Ends (fun _ => s.Equips id todo) (Builds (fun j => j = id) s)
      (applyPluginsWith (reachWith compile) i s₁) := by
  have hi : i ∈ i :: todo := List.mem_cons_self
  refine (ends_applyTo (ends_reachWith_builds hcompile h.builds.orderly _ _)
    fun _ s₂ h₂ => ?_).mono (fun _ s₃ => ?_) fun s₃ => ?_
  · obtain ⟨ids, htodo, hfilled, -⟩ := h.filled
    exact (hfilled.lt_size (htodo hi)).trans_le h₂.frame.modules_size
  · rintro ⟨found, s₂, calls, h₂, ha, happlied⟩
    exact (h.apply hid hi h₂ ha happlied).mono (List.subset_cons_self i todo)
  · rintro (h₂ | ⟨found, s₂, h₂, calls, -, ha, -⟩)
    · exact h.builds.trans h₂
    · exact (h.trans h₂).builds_alters hid hi ha

theorem building_compileAt (depth : Nat) : Building (compileAt depth) := by
  induction depth with
  | zero => exact fun _ _ hs => .refl hs
  | succ depth ih =>
    intro id s hs
    refine ends_compileAt_succ (I := s.Equips id) (J := Builds (fun j => j = id) s)
      (fun hid => ⟨.refl hs, fun _ => hid⟩) (fun hid => ends_makeModules_equips hs hid)
      (fun hid _ _ _ h => ends_applyPluginsWith_equips ih hid h) (fun hid _ h => h.giveUp hid)
      fun hid s₁ n h => ⟨h.finish.called (called_note n), fun hlt => ?_⟩
    exact h.compiled.resolve_right (by rw [h.builds.frame.size]; exact not_le.2 hlt)

theorem building_compile : Building ShaderLink.compile := by
  intro id s hs
  unfold ShaderLink.compile
  apply ends_bind.2
  apply ends_get.2
  exact building_compileAt _ id s hs

end Compile

end ShaderLink
