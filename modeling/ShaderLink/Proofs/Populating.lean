import ShaderLink.Proofs.Ledgers

/-!
# Making the modules of a library

The modules of a library are made one leaf after the other (`Store.Places` says what is done for one
of them), each of them read with the plugins of the library and entered under its own path.  The
invariant `Store.Making` leads through the leaves: `ends_makeModules_work`.
-/

namespace ShaderLink

open Store LinkM

namespace Tree

/-- What is done for each leaf of a tree is done along the list of its leaves. -/
theorem forLeaves_eq_forM {α : Type} (act : Text → α → LinkM Unit) (t : Tree α) (path : Text) :
    t.forLeaves act path =
      (t.leaves.map fun p => (pathOf path p.1, p.2)).forM fun leaf => act leaf.1 leaf.2 := by
  induction t generalizing path with
  | nil => rfl
  | leaf key a rest ih =>
    rw [forLeaves, leaves, List.map_cons, List.forM_eq_forM, List.forM_cons, ih]
    rfl
  | branch key inner rest ihinner ihrest =>
    rw [forLeaves, leaves, List.map_append, List.forM_eq_forM, List.forM_append, ihinner, ihrest,
      List.map_map]
    rfl

end Tree

/-- What is done for one leaf: a module is made, or bound, and entered in the library. -/
structure Store.Places (id : LibraryId) (scope : Scope) (leaf : Text × Source) (i : ModuleId)
    (calls : Calls) (s s' : Store) : Prop where
  spares : Spares (fun j => j ≠ id) (fun j => j ≠ i) s s'
  regular : s'.Regular
  calls_eq : s'.calls = s.calls ++ calls
  library : s'.library id =
    { s.library id with modules := (s.library id).modules.insert leaf.1 i }
  new : leaf.2 = .built i ∨ s.modules.size ≤ i
  old : ∀ j < s'.modules.size, j ≠ i → j < s.modules.size
  fills : s'.Fills leaf i
  scope_eq : (s'.module i).scope = scope
  read : (s'.module i).ReadWith (s.library id).plugins calls

/-- A module can be made or bound for the leaf, if no plugin changes its text. -/
def Store.CanPlace (s : Store) (leaf : Text × Source) : Prop :=
  match leaf.2 with
  | .code t => CanRead leaf.1 t
  | .built i => (s.module i).path = leaf.1 ∧ CanRead leaf.1 (s.module i).source
  | .unsupported _ => False

/-- All modules of the library can be made, if no plugin changes their texts. -/
def Store.CanMake (s : Store) (id : LibraryId) : Prop :=
  (s.library id).definition ≠ .unusable ∧ ∀ leaf ∈ (s.library id).leaves, s.CanPlace leaf

/-- Whether a module can be made for a leaf does not change. -/
theorem Store.CanPlace.of_spares {L : LibraryId → Prop} {M : ModuleId → Prop} {s s' : Store}
    {leaf : Text × Source} (h : s.CanPlace leaf) (hs : Spares L M s s')
    (hbuilt : ∀ i, leaf.2 = .built i → i < s.modules.size) : s'.CanPlace leaf := by
  obtain ⟨path, source⟩ := leaf
  cases source with
  | code t => exact h
  | built i =>
    obtain ⟨hpath, hread⟩ := h
    have hi := hbuilt i rfl
    exact ⟨(hs.path i hi).trans hpath, (hs.source i hi).symm ▸ hread⟩
  | unsupported sort => exact h

theorem Store.CanMake.of_spares {L : LibraryId → Prop} {M : ModuleId → Prop} {s s' : Store}
    {id : LibraryId} (h : s.CanMake id) (hs : s.Regular) (hspares : Spares L M s s') :
    s'.CanMake id := by
  refine ⟨?_, fun leaf hleaf => ?_⟩
  · show (s'.library id).bare.definition ≠ .unusable
    rw [hspares.bare]
    exact h.1
  · rw [hspares.leaves] at hleaf
    exact (h.2 leaf hleaf).of_spares hspares fun i hi => hs.built id i ⟨leaf.1, hi ▸ hleaf⟩

section Place

variable {s : Store} {id : LibraryId} {scope : Scope} {leaf : Text × Source} {i : ModuleId}

/-- Entering a module in a library that is compiled, or just being compiled. -/
theorem Store.Places.enter {s₁ : Store} {calls : Calls} (hid : id < s₁.libraries.size)
    (hcompiled : s₁.IsCompiled id) (hs : Spares (fun _ => True) (fun j => j ≠ i) s s₁)
    (hregular : s₁.Regular) (hcalls : s₁.calls = s.calls ++ calls)
    (hnew : leaf.2 = .built i ∨ s.modules.size ≤ i)
    (hold : ∀ j < s₁.modules.size, j ≠ i → j < s.modules.size) (hfills : s₁.Fills leaf i)
    (hscope : (s₁.module i).scope = scope)
    (hread : (s₁.module i).ReadWith (s.library id).plugins calls) :
    Places id scope leaf i calls s { s₁ with libraries := s₁.libraries.modify id fun l =>
      { l with modules := l.modules.insert leaf.1 i } } := by
  have hchange : Spares (fun j => j ≠ id) (fun j => j ≠ i) s₁ { s₁ with
      libraries := s₁.libraries.modify id fun l =>
        { l with modules := l.modules.insert leaf.1 i } } := spares_changeLibrary (by simp) rfl
  refine ⟨(hs.mono (by simp) (by simp)).trans hchange, ?_, hcalls, ?_, hnew, hold,
    hfills.of_spares hchange, hscope, hread⟩
  · exact hregular.changeLibrary rfl fun _ hidle => absurd hcompiled hidle
  · rw [library_modify, if_pos ⟨rfl, hid⟩, hs.libraries id trivial]

/-- What was done for a leaf of which no module could be made: its text was not read to the end. -/
structure Store.Misplaces (id : LibraryId) (leaf : Text × Source) (s s' : Store) : Prop where
  spares : Spares (fun _ => True) (fun j => leaf.2 ≠ .built j) s s'
  regular : s'.Regular
  reads : ∃ calls : Calls, s'.calls = s.calls ++ calls ∧ calls.Reads (s.library id).plugins
  reason : (s.library id).plugins = [] → ¬ s.CanPlace leaf

theorem Store.Misplaces.of_not_canPlace (hs : s.Regular) (h : ¬ s.CanPlace leaf) :
    Misplaces id leaf s s where
  spares := .refl _ _ s
  regular := hs
  reads := ⟨[], (List.append_nil _).symm, .nil⟩
  reason _ := h

/-- A module is made of a text. -/
theorem ends_placeModule_code {path t : Text} (hs : s.Regular) (hid : id < s.libraries.size)
    (hcompiled : s.IsCompiled id) (hscope : s.InScope scope)
    (hplugins : s.pluginsOf scope = (s.library id).plugins) :
    Ends (fun _ s' => ∃ i calls, Places id scope (path, .code t) i calls s s')
      (Misplaces id (path, .code t) s) (placeModule id scope path (.code t) s) := by
  unfold placeModule
  refine ((ends_makeModule_calls path t scope false).mono (fun i s₁ => ?_) fun s₁ => ?_) |>
    ends_bind.2
  · rintro ⟨rfl, calls, s₂, m, hs₂, rfl, hpath, hsource, hm, hread⟩
    have hspares : Spares (fun _ => True) (fun _ => True) s s₂ := hs₂.spares
    have hsize : s₂.modules.size = s.modules.size := by rw [hs₂.modules]
    have hmodule : Store.module { s₂ with modules := s₂.modules.push m } s.modules.size = m := by
      rw [module_push, if_pos hsize.symm]
    apply ends_modify.2
    refine ⟨_, calls, Places.enter ?_ ?_ ?_ ?_ hs₂.calls_eq (Or.inr le_rfl) ?_ ?_ ?_ ?_⟩
    · exact hspares.size ▸ hid
    · rw [IsCompiled, library, hs₂.libraries]
      exact hcompiled
    · exact (hspares.mono (by simp) (by simp)).trans (spares_push m)
    · exact (hs.of_called hs₂).push (hspares.inScope (hm ▸ hscope))
    · intro j hj hne
      rw [Array.size_push, hsize] at hj
      exact Nat.lt_of_le_of_ne (Nat.lt_succ_iff.1 hj) hne
    · refine ⟨?_, ?_, ?_⟩
      · rw [Array.size_push, hsize]
        exact Nat.lt_succ_self _
      · rw [hmodule, hpath]
      · rw [hmodule, hsource]
        exact Or.inl rfl
    · rw [hmodule, hm]
    · rw [hmodule, ← hplugins]
      exact hread
  · rintro ⟨⟨calls, hs₁, hreads⟩, hread⟩
    exact ⟨hs₁.spares, hs.of_called hs₁, ⟨calls, hs₁.calls_eq, hplugins ▸ hreads⟩,
      fun hnone => hread (hplugins.trans hnone)⟩

/-- A module that exists is bound, if it is at the path of the leaf. -/
theorem ends_placeModule_built {path : Text} (hs : s.Regular) (hid : id < s.libraries.size)
    (hcompiled : s.IsCompiled id) (hscope : s.InScope scope)
    (hplugins : s.pluginsOf scope = (s.library id).plugins) (hi : i < s.modules.size)
    (hunbound : (s.module i).path = path → (s.module i).scope.serial ≠ scope.serial) :
    Ends (fun _ s' => ∃ j calls, Places id scope (path, .built i) j calls s s')
      (Misplaces id (path, .built i) s) (placeModule id scope path (.built i) s) := by
  unfold placeModule
  apply ends_bind.2
  apply ends_get.2
  by_cases hpath : (s.module i).path ≠ path
  · rw [if_pos hpath]
    exact .of_not_canPlace hs fun hcan => hpath hcan.1
  rw [if_neg hpath]
  have hpath := not_ne_iff.1 hpath
  have hbound : ∀ {s₁ : Store} {calls : Calls}, Alters i calls s s₁ →
      (s₁.module i).scope = scope → s₁.InScope (s₁.module i).scope := by
    intro s₁ calls h₁ hscope₁
    have hspares : Spares (fun _ => True) (fun j => j ≠ i) s s₁ := h₁.spares (by simp)
    exact hscope₁ ▸ hspares.inScope hscope
  refine ((ends_bindModule_calls hi (hunbound hpath)).mono (fun _ s₁ => ?_) fun s₁ => ?_) |>
    ends_bind.2
  · rintro ⟨calls, h₁, hscope₁, hread⟩
    have hspares : Spares (fun _ => True) (fun j => j ≠ i) s s₁ := h₁.spares (by simp)
    apply ends_modify.2
    refine ⟨i, calls, Places.enter ?_ ?_ hspares (hs.of_alters h₁ (hbound h₁ hscope₁))
      h₁.calls_eq (Or.inl rfl) ?_ ⟨?_, ?_, Or.inr rfl⟩ hscope₁ (hplugins ▸ hread)⟩
    · exact hspares.size ▸ hid
    · rw [IsCompiled, h₁.library]
      exact hcompiled
    · exact fun j hj _ => h₁.modules_size ▸ hj
    · exact h₁.modules_size ▸ hi
    · rw [h₁.path, hpath]
  · rintro ⟨⟨calls, h₁, hm, hreads⟩, hread⟩
    have hscope₁ : (s₁.module i).scope = scope := by rw [hm]
    refine ⟨h₁.spares fun h => h rfl, hs.of_alters h₁ (hbound h₁ hscope₁),
      ⟨calls, h₁.calls_eq, hplugins ▸ hreads⟩, fun hnone hcan => ?_⟩
    rw [hpath] at hread
    exact hread (hplugins.trans hnone) hcan.2

theorem ends_placeModule_places (hs : s.Regular) (hid : id < s.libraries.size)
    (hcompiled : s.IsCompiled id) (howner : scope.owner = .library id)
    (hserial : scope.serial < s.nextSerial) (hleaf : leaf ∈ (s.library id).leaves)
    (hunbound : ∀ i < s.modules.size, (s.module i).path = leaf.1 →
      (s.module i).scope.serial ≠ scope.serial) :
    Ends (fun _ s' => ∃ i calls, Places id scope leaf i calls s s') (Misplaces id leaf s)
      (placeModule id scope leaf.1 leaf.2 s) := by
  have hplugins : s.pluginsOf scope = (s.library id).plugins := by
    rw [pluginsOf, howner]
  have hscope : s.InScope scope := by
    refine ⟨hserial, ?_⟩
    rw [howner]
    intro p hp
    cases hp
  obtain ⟨path, source⟩ := leaf
  cases source with
  | code t => exact ends_placeModule_code hs hid hcompiled hscope hplugins
  | built i =>
    have hi : i < s.modules.size := hs.built id i ⟨path, hleaf⟩
    exact ends_placeModule_built hs hid hcompiled hscope hplugins hi (hunbound i hi)
  | unsupported sort => exact .of_not_canPlace hs fun hcan => hcan

end Place

/-- What was done once the modules of some leaves are made. -/
structure Store.Making (s : Store) (id : LibraryId) (scope : Scope) (leaves : List (Text × Source))
    (work : Work) (s' : Store) : Prop where
  spares : Spares (fun j => j ≠ id) (fun j => ¬ s.IsLeaf id j) s s'
  regular : s'.Regular
  calls_eq : s'.calls = s.calls ++ Work.calls work
  library : s'.library id =
    { s.library id with modules := (leaves.map Prod.fst).zip (work.map Prod.fst) }
  fills : List.Forall₂ (fun leaf w => s'.Fills leaf w.1) leaves work
  read : ∀ w ∈ work, (s'.module w.1).scope = scope ∧
    (s'.module w.1).ReadWith (s.library id).plugins w.2
  new : List.Forall₂ (fun leaf w => leaf.2 = .built w.1 ∨ s.modules.size ≤ w.1) leaves work
  bound : ∀ j < s'.modules.size, (s'.module j).scope.serial = scope.serial → j ∈ work.map Prod.fst

section Make

variable {s s' s'' : Store} {id : LibraryId} {scope : Scope} {leaves rest : List (Text × Source)}
  {leaf : Text × Source} {work : Work} {i : ModuleId} {calls : Calls}

/-- Different leaves have different paths. -/
theorem Store.Regular.path_not_mem (hs : s.Regular)
    (hleaves : (s.library id).leaves = leaves ++ leaf :: rest) : leaf.1 ∉ leaves.map Prod.fst := by
  have hdistinct := hs.distinct id
  rw [hleaves, List.map_append, List.map_cons, List.nodup_append] at hdistinct
  exact fun hmem => hdistinct.2.2 _ hmem _ List.mem_cons_self rfl

/-- Different leaves have different modules. -/
theorem not_mem_of_forall₂_fills (h : List.Forall₂ (fun leaf (w : ModuleId × Calls) =>
    s.Fills leaf w.1) leaves work) (hpath : (s.module i).path ∉ leaves.map Prod.fst) :
    i ∉ work.map Prod.fst := by
  intro hmem
  obtain ⟨w, hw, rfl⟩ := List.mem_map.1 hmem
  obtain ⟨leaf, hleaf, hfills⟩ := exists_of_forall₂_right h hw
  exact hpath (hfills.path ▸ List.mem_map_of_mem hleaf)

/-- The modules that were not made are leaves of the library. -/
theorem Store.Making.isLeaf_or_new (h : s.Making id scope leaves work s')
    (hleaves : leaves ⊆ (s.library id).leaves) :
    ∀ w ∈ work, s.IsLeaf id w.1 ∨ s.modules.size ≤ w.1 := by
  intro w hw
  obtain ⟨leaf, hleaf, hnew⟩ := exists_of_forall₂_right h.new hw
  refine hnew.imp_left fun hbuilt => ⟨leaf.1, ?_⟩
  rw [← hbuilt]
  exact hleaves hleaf

/-- What was done for the leaves is not more than one pass over each of them. -/
theorem Store.Making.attempts (h : s.Making id scope leaves work s') :
    List.Forall₂ (s.Tries id (s.library id).plugins) leaves (work.map Prod.snd) := by
  rw [List.forall₂_map_right_iff]
  have hread := h.read
  have hfills := h.fills
  clear h
  induction hfills with
  | nil => exact .nil
  | cons _ _ ih =>
    rw [List.forall_mem_cons] at hread
    exact .cons (.of_reads hread.1.2.reads) (ih hread.2)

/-- Making one more module touches no others but leaves of the library. -/
theorem Store.Making.spares_place (h : s.Making id scope leaves work s')
    (hi : s.IsLeaf id i ∨ s.modules.size ≤ i) (h' : Places id scope leaf i calls s' s'') :
    Spares (fun j => j ≠ id) (fun j => ¬ s.IsLeaf id j) s s'' := by
  let M : ModuleId → Prop := fun j => ¬ s.IsLeaf id j ∧ j < s.modules.size
  have h₁ : Spares (fun j => j ≠ id) M s s' := h.spares.mono (by simp) fun _ _ hj => hj.1
  have h₂ : Spares (fun j => j ≠ id) M s' s'' := by
    refine h'.spares.mono (by simp) fun j _ hj => ?_
    rintro rfl
    exact hi.elim hj.1 fun hle => hle.not_gt hj.2
  exact (h₁.trans h₂).mono (by simp) fun _ hlt hj => ⟨hj, hlt⟩

theorem Store.Making.place (h : s.Making id scope leaves work s')
    (hs : s.Regular) (hleaves : (s.library id).leaves = leaves ++ leaf :: rest)
    (h' : Places id scope leaf i calls s' s'') :
    s.Making id scope (leaves ++ [leaf]) (work ++ [(i, calls)]) s'' := by
  have hpath : leaf.1 ∉ leaves.map Prod.fst := hs.path_not_mem hleaves
  have hlength := h.fills.length_eq
  have hfills : List.Forall₂ (fun leaf w => s''.Fills leaf w.1) leaves work :=
    h.fills.imp fun _ _ hfills => hfills.of_spares h'.spares
  have hi : i ∉ work.map Prod.fst := not_mem_of_forall₂_fills hfills (h'.fills.path ▸ hpath)
  have hnew := h'.new.imp_right h.spares.modules_size.trans
  have hleaf : s.IsLeaf id i ∨ s.modules.size ≤ i := by
    refine hnew.imp_left fun hbuilt => ⟨leaf.1, ?_⟩
    rw [← hbuilt, hleaves]
    simp
  have hplugins : (s'.library id).plugins = (s.library id).plugins := h.spares.plugins id
  refine ⟨h.spares_place hleaf h', h'.regular, ?_, ?_, List.rel_append hfills (.cons h'.fills .nil),
    ?_, List.rel_append h.new (.cons hnew .nil), ?_⟩
  · rw [h'.calls_eq, h.calls_eq]
    simp [Work.calls]
  · rw [h'.library, h.library, Table.insert_of_not_mem, List.map_append, List.map_append,
      List.zip_append (by simpa using hlength)]
    · rfl
    · rwa [Table.keys, List.map_fst_zip (by simp [hlength])]
  · intro w hw
    rcases List.mem_append.1 hw with hw | hw
    · have hmem : w.1 ∈ work.map Prod.fst := List.mem_map_of_mem hw
      have hne : w.1 ≠ i := fun heq => hi (heq ▸ hmem)
      have hlt : w.1 < s'.modules.size := by
        obtain ⟨leaf', -, hfills⟩ := exists_of_forall₂_right h.fills hw
        exact hfills.lt_size
      rw [h'.spares.modules w.1 hlt hne]
      exact h.read w hw
    · obtain rfl := List.mem_singleton.1 hw
      exact ⟨h'.scope_eq, hplugins ▸ h'.read⟩
  · intro j hj hserial
    rw [List.map_append, List.mem_append]
    by_cases hji : j = i
    · exact Or.inr (by simp [hji])
    · have hlt := h'.old j hj hji
      rw [h'.spares.modules j hlt hji] at hserial
      exact Or.inl (h.bound j hlt hserial)

/-- What was done for a library of which not all modules could be made. -/
structure Store.Misfills (s : Store) (id : LibraryId) (s' : Store) : Prop where
  spares : Spares (fun j => j ≠ id) (fun j => ¬ s.IsLeaf id j) s s'
  regular : s'.Regular
  attempts : ∃ tries, s'.calls = s.calls ++ tries.flatten ∧ s.Attempts id tries
  reason : (s.library id).plugins = [] → ¬ s.CanMake id

/-- No module can be made for the next leaf. -/
theorem Store.Making.misfills (h : s.Making id scope leaves work s') (hs : s.Regular)
    (hleaves : (s.library id).leaves = leaves ++ leaf :: rest) (h' : Misplaces id leaf s' s'') :
    s.Misfills id s'' := by
  have hmem : leaf ∈ (s.library id).leaves := by simp [hleaves]
  obtain ⟨calls, hcalls, hreads⟩ := h'.reads
  refine ⟨h.spares.trans (h'.spares.mono (by simp) fun j _ hj hbuilt => hj ⟨leaf.1, hbuilt ▸ hmem⟩),
    h'.regular, ⟨work.map Prod.snd ++ [calls], ?_, leaves ++ [leaf], ⟨rest, by simp [hleaves]⟩, ?_⟩,
    fun hnone hcan => h'.reason ((h.spares.plugins id).trans hnone) ?_⟩
  · rw [hcalls, h.calls_eq, Work.calls_eq_flatten, List.flatten_append, List.flatten_singleton,
      List.append_assoc]
  · rw [h.spares.plugins] at hreads
    exact List.rel_append h.attempts (.cons (.of_reads hreads) .nil)
  · refine (hcan.of_spares hs h.spares).2 leaf ?_
    rw [h.spares.leaves]
    exact hmem

/-- The next leaf gets its module. -/
theorem Store.Making.ends_placeModule (h : s.Making id scope leaves work s') (hs : s.Regular)
    (hid : id < s.libraries.size) (hcompiled : s.IsCompiled id) (howner : scope.owner = .library id)
    (hserial : scope.serial < s'.nextSerial)
    (hleaves : (s.library id).leaves = leaves ++ leaf :: rest) :
    Ends (fun _ s'' => ∃ i calls, Places id scope leaf i calls s' s'') (Misplaces id leaf s')
      (placeModule id scope leaf.1 leaf.2 s') := by
  have hmem : leaf ∈ (s'.library id).leaves := by
    rw [h.spares.leaves, hleaves]
    simp
  have hcompiled' : s'.IsCompiled id := by
    rw [IsCompiled, h.library]
    exact hcompiled
  refine ends_placeModule_places h.regular (h.spares.size ▸ hid) hcompiled' howner hserial hmem
    fun i hi hpath hbound => ?_
  refine not_mem_of_forall₂_fills h.fills ?_ (h.bound i hi hbound)
  rw [hpath]
  exact hs.path_not_mem hleaves

/-- The modules of a library are made in the order of its leaves, and read with its plugins. -/
theorem ends_makeModules_work (hs : s.Regular) (hid : id < s.libraries.size)
    (hcompiled : s.IsCompiled id) (hempty : (s.library id).modules = []) :
    Ends (fun _ s' => (s.library id).definition ≠ .unusable ∧ ∃ scope work,
        scope.owner = .library id ∧ s.Making id scope (s.library id).leaves work s')
      (s.Misfills id) (makeModules id s) := by
  unfold makeModules
  apply ends_bind.2
  apply ends_get.2
  apply ends_bind.2
  apply ends_bind.2
  apply ends_get.2
  apply ends_bind.2
  apply ends_set.2
  apply ends_pure.2
  let scope : Scope := { serial := s.nextSerial, owner := .library id }
  let s₁ : Store := { s with nextSerial := s.nextSerial + 1 }
  have hfresh : Called [] s s₁ := ⟨quiet_fresh s, (List.append_nil _).symm⟩
  have hs₁ : s₁.Regular := hs.of_called hfresh
  have hspares₁ : Spares (fun j => j ≠ id) (fun j => ¬ s.IsLeaf id j) s s₁ := hfresh.spares
  cases hdefinition : (s.library id).definition with
  | unusable =>
    exact ⟨hspares₁, hs₁, ⟨[], hfresh.calls_eq, [], List.nil_prefix, .nil⟩,
      fun _ hcan => hcan.1 hdefinition⟩
  | tree t =>
    have hleaves : (t.leaves.map fun p => (Tree.pathOf (s.library id).name p.1, p.2)) =
        (s.library id).leaves := by
      rw [Library.leaves, hdefinition]
      rfl
    show Ends _ _ (t.forLeaves (placeModule id scope) (s.library id).name s₁)
    rw [Tree.forLeaves_eq_forM, hleaves]
    refine (ends_forM_rest (I := fun rest s' => ∃ leaves work,
      (s.library id).leaves = leaves ++ rest ∧ s.Making id scope leaves work s' ∧
        s.nextSerial < s'.nextSerial) ?_ ?_).imp fun _ s' => ?_
    · rintro leaf rest s' ⟨leaves, work, hrest, hmaking, hserial⟩
      refine (hmaking.ends_placeModule hs hid hcompiled rfl hserial hrest).mono (fun _ s'' => ?_)
        fun s'' h => hmaking.misfills hs hrest h
      rintro ⟨i, calls, hplaces⟩
      exact ⟨_, _, by simp [hrest], hmaking.place hs hrest hplaces,
        hserial.trans_le hplaces.spares.nextSerial⟩
    · refine ⟨[], [], rfl, ⟨hspares₁, hs₁, hfresh.calls_eq, ?_, .nil, by simp, .nil, ?_⟩,
        Nat.lt_succ_self _⟩
      · show s.library id = { s.library id with modules := [] }
        rw [← hempty]
      · exact fun j hj hserial => absurd hserial (hs.scopes j hj).1.ne
    · rintro ⟨leaves, work, hleaves, hmaking, -⟩
      rw [List.append_nil] at hleaves
      exact ⟨Definition.noConfusion, scope, work, rfl, hleaves ▸ hmaking⟩

end Make

end ShaderLink
