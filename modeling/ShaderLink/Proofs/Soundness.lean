import ShaderLink.Compile
import ShaderLink.Proofs.Reading

/-!
# Sound stores

In a store that was built without plugins, every declaration stands in the module of its path and
has a number of its own, libraries are entered under their names and can import from themselves, and
the modules of a library are found under paths that begin with its name.  `Store.Sound` says so, and
it survives each change of the store: of its counter and its notices (`Sound.of_quiet`), by a new
module (`Sound.push`), and of one module or library (`Sound.changeModule`, `Sound.changeLibrary`).
-/

namespace ShaderLink

namespace Store

/-! ## Looking into a changed store -/

section Changes

variable (s : Store)

theorem module_push (m : Module) (i : ModuleId) :
    ({ s with modules := s.modules.push m } : Store).module i =
      if i = s.modules.size then m else s.module i := by
  unfold module
  rw [Array.getD_eq_getD_getElem?, Array.getD_eq_getD_getElem?, Array.getElem?_push]
  split <;> rfl

theorem module_modify (id i : ModuleId) (f : Module → Module) :
    ({ s with modules := s.modules.modify id f } : Store).module i =
      if i = id ∧ i < s.modules.size then f (s.module i) else s.module i := by
  unfold module
  rw [Array.getD_eq_getD_getElem?, Array.getD_eq_getD_getElem?, Array.getElem?_modify]
  by_cases h : id = i
  · subst h
    by_cases hlt : id < s.modules.size <;> simp [hlt]
  · simp [h, Ne.symm h]

theorem library_modify (id j : LibraryId) (f : Library → Library) :
    ({ s with libraries := s.libraries.modify id f } : Store).library j =
      if j = id ∧ j < s.libraries.size then f (s.library j) else s.library j := by
  unfold library
  rw [Array.getD_eq_getD_getElem?, Array.getD_eq_getD_getElem?, Array.getElem?_modify]
  by_cases h : id = j
  · subst h
    by_cases hlt : id < s.libraries.size <;> simp [hlt]
  · simp [h, Ne.symm h]

theorem library_push (l : Library) (j : LibraryId) :
    ({ s with libraries := s.libraries.push l } : Store).library j =
      if j = s.libraries.size then l else s.library j := by
  unfold library
  rw [Array.getD_eq_getD_getElem?, Array.getD_eq_getD_getElem?, Array.getElem?_push]
  split <;> rfl

theorem module_of_size_le {i : ModuleId} (h : s.modules.size ≤ i) :
    s.module i = { path := [], source := [] } := by
  simp [module, h]

theorem library_of_size_le {id : LibraryId} (h : s.libraries.size ≤ id) :
    s.library id = { name := [], definition := .tree .nil } := by
  simp [library, h]

end Changes

/-! ## Soundness -/

/-- Each library in the table is entered under its name. -/
def Names (s : Store) (t : Table Text LibraryId) : Prop :=
  ∀ p ∈ t, p.2 < s.libraries.size ∧ (s.library p.2).name = p.1

/-- There are no plugins in the scope, and what can be imported is entered under its name. -/
def Plain (s : Store) (scope : Scope) : Prop :=
  ∀ libraries plugins, scope.owner = .alone libraries plugins → s.Names libraries ∧ plugins = []

/-- The declarations of a module belong to its path and refer to what is in sight; they are
numbered, each with a number of its own below the bound. -/
structure Numbered (path : Text) (ds : List Declaration) (bound : Nat) : Prop where
  path_eq : ∀ d ∈ ds, d.path = path
  name : ∀ d ∈ ds, IsSegment d.name
  references : ∀ d ∈ ds, ∀ r ∈ d.references, IsSegment r.name
  declared : ∀ d ∈ ds, ∀ r ∈ d.references, r.IsDeclaredIn ds
  serial : ∀ d ∈ ds, d.serial < bound
  distinct : (ds.map (·.serial)).Nodup

theorem Numbered.mono {path : Text} {ds : List Declaration} {n n' : Nat} (h : Numbered path ds n)
    (hn : n ≤ n') : Numbered path ds n' :=
  ⟨h.path_eq, h.name, h.references, h.declared, fun d hd => (h.serial d hd).trans_le hn,
    h.distinct⟩

/-- What is true of a module that has no declarations. -/
theorem numbered_nil (path : Text) (bound : Nat) : Numbered path [] bound :=
  ⟨nofun, nofun, nofun, nofun, nofun, List.nodup_nil⟩

/-- A declaration without its number. -/
def unstamped (d : Declaration) : Declaration := { d with serial := 0 }

/-- What was read in a module, once it has numbers. -/
theorem numbered_of_unstamped {path : Text} {o : Outline} {ds : List Declaration} {bound : Nat}
    (h : o.ReadAt path) (hds : ds.map unstamped = o.declarations)
    (hserial : ∀ d ∈ ds, d.serial < bound) (hdistinct : (ds.map (·.serial)).Nodup) :
    Numbered path ds bound := by
  have hread : ∀ d ∈ ds, unstamped d ∈ o.declarations := by
    rw [← hds]
    exact fun d hd => List.mem_map_of_mem hd
  refine ⟨fun d hd => (h.declarations _ (hread d hd)).path_eq,
    fun d hd => (h.declarations _ (hread d hd)).name, fun d hd r hr => h.isSegment (hread d hd) hr,
    fun d hd r hr horigin => ?_, hserial, hdistinct⟩
  obtain ⟨c, hc, hcr⟩ := h.isDeclaredIn (hread d hd) hr horigin
  rw [← hds] at hc
  obtain ⟨e, he, rfl⟩ := List.mem_map.1 hc
  exact ⟨e, he, hcr⟩

/-- What is true of a store without plugins. -/
structure Sound (s : Store) : Prop where
  numbered : ∀ i, Numbered (s.module i).path (s.module i).declarations s.nextSerial
  apart : ∀ i j, ∀ d ∈ (s.module i).declarations, ∀ e ∈ (s.module j).declarations,
    d.serial = e.serial → i = j
  named : ∀ id, s.Names (s.library id).dependencies
  /-- The modules of a library can import from it. -/
  itself : ∀ id < s.libraries.size, (s.library id).name ∈ (s.library id).dependencies.keys
  registered : s.Names s.registry.libraries
  plain : ∀ i, s.Plain (s.module i).scope
  plugins : ∀ id, (s.library id).plugins = []
  registryPlugins : s.registry.plugins = []
  /-- The modules of a library have the paths under which it finds them. -/
  placed : ∀ id, ∀ p ∈ (s.library id).modules,
    firstSegment p.1 = firstSegment (s.library id).name ∧ (p.1 ≠ [] → (s.module p.2).path = p.1)
  idle : ∀ id, (s.library id).isCompiled = false → (s.library id).modules = []

/-! ## What keeps a store sound -/

section Preservation

variable {s s' : Store}

theorem Names.of_names (hsize : s.libraries.size ≤ s'.libraries.size)
    (hname : ∀ id < s.libraries.size, (s'.library id).name = (s.library id).name)
    {t : Table Text LibraryId} (h : s.Names t) : s'.Names t := by
  intro p hp
  obtain ⟨hlt, hn⟩ := h p hp
  exact ⟨hlt.trans_le hsize, (hname _ hlt).trans hn⟩

theorem Plain.of_names (hsize : s.libraries.size ≤ s'.libraries.size)
    (hname : ∀ id < s.libraries.size, (s'.library id).name = (s.library id).name)
    {scope : Scope} (h : s.Plain scope) : s'.Plain scope := by
  intro libraries plugins howner
  obtain ⟨hnames, hplugins⟩ := h libraries plugins howner
  exact ⟨hnames.of_names hsize hname, hplugins⟩

/-- Only the counter, the notices and the calls may have changed. -/
structure Quiet (s s' : Store) : Prop where
  libraries : s'.libraries = s.libraries
  modules : s'.modules = s.modules
  registry : s'.registry = s.registry
  nextSerial : s.nextSerial ≤ s'.nextSerial

namespace Quiet

theorem refl (s : Store) : Quiet s s := ⟨rfl, rfl, rfl, le_rfl⟩

theorem trans {s'' : Store} (h : Quiet s s') (h' : Quiet s' s'') : Quiet s s'' :=
  ⟨h'.libraries.trans h.libraries, h'.modules.trans h.modules, h'.registry.trans h.registry,
    h.nextSerial.trans h'.nextSerial⟩

theorem module (h : Quiet s s') : s'.module = s.module := by
  funext i
  rw [Store.module, Store.module, h.modules]

theorem library (h : Quiet s s') : s'.library = s.library := by
  funext id
  rw [Store.library, Store.library, h.libraries]

theorem names (h : Quiet s s') : s'.Names = s.Names := by
  funext t
  rw [Names, Names, h.libraries, h.library]

theorem plain (h : Quiet s s') : s'.Plain = s.Plain := by
  funext scope
  rw [Plain, Plain, h.names]

end Quiet

theorem Sound.of_quiet (hs : s.Sound) (h : Quiet s s') : s'.Sound where
  numbered i := by
    rw [h.module]
    exact (hs.numbered i).mono h.nextSerial
  apart := by
    rw [h.module]
    exact hs.apart
  named := by
    rw [h.library, h.names]
    exact hs.named
  itself := by
    rw [h.libraries, h.library]
    exact hs.itself
  registered := by
    rw [h.registry, h.names]
    exact hs.registered
  plain := by
    rw [h.module, h.plain]
    exact hs.plain
  plugins := by
    rw [h.library]
    exact hs.plugins
  registryPlugins := by
    rw [h.registry]
    exact hs.registryPlugins
  placed := by
    rw [h.library, h.module]
    exact hs.placed
  idle := by
    rw [h.library]
    exact hs.idle

/-- The numbers of the declarations are not in use in any other module than that one. -/
def Unused (s : Store) (id : ModuleId) (ds : List Declaration) : Prop :=
  ∀ d ∈ ds, ∀ i, i ≠ id → ∀ e ∈ (s.module i).declarations, d.serial ≠ e.serial

theorem Sound.push (hs : s.Sound) {m : Module} (hm : Numbered m.path m.declarations s.nextSerial)
    (hunused : s.Unused s.modules.size m.declarations) (hplain : s.Plain m.scope) :
    Sound { s with modules := s.modules.push m } where
  numbered i := by
    rw [module_push]
    split
    · exact hm
    · exact hs.numbered i
  apart i j d hd e he h := by
    rw [module_push] at hd he
    split at hd <;> split at he
    · rename_i hi hj
      rw [hi, hj]
    · rename_i hj
      exact absurd h (hunused d hd j hj e he)
    · rename_i hi _
      exact absurd h.symm (hunused e he i hi d hd)
    · exact hs.apart i j d hd e he h
  named := hs.named
  itself := hs.itself
  registered := hs.registered
  plain i := by
    rw [module_push]
    split
    · exact hplain
    · exact hs.plain i
  plugins := hs.plugins
  registryPlugins := hs.registryPlugins
  placed id p hp := by
    obtain ⟨hsegment, hpath⟩ := hs.placed id p hp
    refine ⟨hsegment, fun hne => ?_⟩
    rw [module_push, if_neg]
    · exact hpath hne
    · intro h
      refine hne ?_
      rw [← hpath hne, module_of_size_le s h.ge]
  idle := hs.idle

theorem Sound.changeModule (hs : s.Sound) {id : ModuleId} {f : Module → Module}
    (hpath : (f (s.module id)).path = (s.module id).path)
    (hnumbered : Numbered (s.module id).path (f (s.module id)).declarations s.nextSerial)
    (hunused : s.Unused id (f (s.module id)).declarations)
    (hplain : s.Plain (f (s.module id)).scope) :
    Sound { s with modules := s.modules.modify id f } where
  numbered i := by
    rw [module_modify]
    split
    · rename_i h
      rw [h.1, hpath]
      exact hnumbered
    · exact hs.numbered i
  apart i j d hd e he h := by
    rw [module_modify] at hd he
    split at hd <;> split at he
    · rename_i hi hj
      rw [hi.1, hj.1]
    · rename_i hi hj
      by_cases hji : j = id
      · rw [hi.1, hji]
      · rw [hi.1] at hd
        exact absurd h (hunused d hd j hji e he)
    · rename_i hi hj
      by_cases hii : i = id
      · rw [hii, hj.1]
      · rw [hj.1] at he
        exact absurd h.symm (hunused e he i hii d hd)
    · exact hs.apart i j d hd e he h
  named := hs.named
  itself := hs.itself
  registered := hs.registered
  plain i := by
    rw [module_modify]
    split
    · rename_i h
      rw [h.1]
      exact hplain
    · exact hs.plain i
  plugins := hs.plugins
  registryPlugins := hs.registryPlugins
  placed id' p hp := by
    obtain ⟨hsegment, hp⟩ := hs.placed id' p hp
    refine ⟨hsegment, fun hne => ?_⟩
    rw [module_modify]
    split
    · rename_i h
      rw [h.1, hpath, ← h.1]
      exact hp hne
    · exact hp hne
  idle := hs.idle

theorem Sound.changeLibrary (hs : s.Sound) {id : LibraryId} {f : Library → Library}
    (hname : (f (s.library id)).name = (s.library id).name)
    (hplugins : (f (s.library id)).plugins = (s.library id).plugins)
    (hnamed : s.Names (f (s.library id)).dependencies)
    (hitself : ∀ k ∈ (s.library id).dependencies.keys, k ∈ (f (s.library id)).dependencies.keys)
    (hplaced : ∀ p ∈ (f (s.library id)).modules,
      firstSegment p.1 = firstSegment (s.library id).name ∧ (p.1 ≠ [] → (s.module p.2).path = p.1))
    (hidle : id < s.libraries.size → (f (s.library id)).isCompiled = false →
      (f (s.library id)).modules = []) :
    Sound { s with libraries := s.libraries.modify id f } := by
  have hsize : s.libraries.size ≤ (s.libraries.modify id f).size := by simp
  have hnames : ∀ j, (({ s with libraries := s.libraries.modify id f } : Store).library j).name =
      (s.library j).name := by
    intro j
    rw [library_modify]
    split
    · rename_i h
      rw [h.1, hname]
    · rfl
  refine ⟨hs.numbered, hs.apart, fun j => ?_, fun j hj => ?_, ?_, fun i => ?_, fun j => ?_,
    hs.registryPlugins, fun j p hp => ?_, fun j hj => ?_⟩
  · apply Names.of_names hsize fun j _ => hnames j
    rw [library_modify]
    split
    · rename_i h
      rw [h.1]
      exact hnamed
    · exact hs.named j
  · rw [Array.size_modify] at hj
    rw [hnames, library_modify]
    split
    · rename_i h
      rw [h.1]
      exact hitself _ (hs.itself id (h.1 ▸ hj))
    · exact hs.itself j hj
  · exact hs.registered.of_names hsize fun j _ => hnames j
  · exact (hs.plain i).of_names hsize fun j _ => hnames j
  · rw [library_modify]
    split
    · rename_i h
      rw [h.1, hplugins]
      exact hs.plugins id
    · exact hs.plugins j
  · rw [hnames]
    rw [library_modify] at hp
    split at hp
    · rename_i h
      rw [h.1] at hp ⊢
      exact hplaced p hp
    · exact hs.placed j p hp
  · rw [library_modify] at hj ⊢
    split
    · rename_i h
      rw [if_pos h, h.1] at hj
      rw [h.1]
      exact hidle (h.1 ▸ h.2) hj
    · rename_i h
      rw [if_neg h] at hj
      exact hs.idle j hj

end Preservation

end Store

end ShaderLink
