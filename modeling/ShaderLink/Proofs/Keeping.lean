import ShaderLink.Proofs.Soundness

/-!
# What a computation leaves alone

While a library is compiled, the libraries that are compiled already stay as they are, and so do the
modules below their names (`Store.Keeps`, for any set of libraries to be kept).  Names, imports and
paths never change.  Making modules and binding them keeps all libraries but the one for which this
is done: `ends_makeModules`.
-/

namespace ShaderLink

namespace Store

/-- The libraries in `C` stay as they are, and so do the modules whose paths begin with a name that
only such libraries have; nothing is renamed, and no module disappears. -/
structure Keeps (C : LibraryId → Prop) (s s' : Store) : Prop where
  size : s'.libraries.size = s.libraries.size
  name : ∀ id, (s'.library id).name = (s.library id).name
  dependencies : ∀ id, (s'.library id).dependencies = (s.library id).dependencies
  registry : s'.registry = s.registry
  libraries : ∀ id, C id → s'.library id = s.library id
  modules_size : s.modules.size ≤ s'.modules.size
  path : ∀ i < s.modules.size, (s'.module i).path = (s.module i).path
  modules : ∀ i < s.modules.size,
    (∀ id, (s.library id).name = firstSegment (s.module i).path → C id) → s'.module i = s.module i

section Keeps

variable {C : LibraryId → Prop} {s s' s'' : Store}

namespace Keeps

theorem trans (h : Keeps C s s') (h' : Keeps C s' s'') : Keeps C s s'' where
  size := h'.size.trans h.size
  name id := (h'.name id).trans (h.name id)
  dependencies id := (h'.dependencies id).trans (h.dependencies id)
  registry := h'.registry.trans h.registry
  libraries id hid := (h'.libraries id hid).trans (h.libraries id hid)
  modules_size := h.modules_size.trans h'.modules_size
  path i hi := (h'.path i (hi.trans_le h.modules_size)).trans (h.path i hi)
  modules i hi hall := by
    have hfirst := h.modules i hi hall
    rw [← hfirst]
    apply h'.modules i (hi.trans_le h.modules_size)
    intro id hid
    rw [h.name, hfirst] at hid
    exact hall id hid

theorem mono {D : LibraryId → Prop} (h : Keeps D s s') (hCD : ∀ id, C id → D id) :
    Keeps C s s' :=
  ⟨h.size, h.name, h.dependencies, h.registry, fun id hid => h.libraries id (hCD id hid),
    h.modules_size, h.path, fun i hi hall => h.modules i hi fun id hid => hCD id (hall id hid)⟩

theorem of_quiet (h : Quiet s s') : Keeps C s s' := by
  refine ⟨by rw [h.libraries], ?_, ?_, h.registry, ?_, h.modules.symm ▸ le_rfl, ?_, ?_⟩
  all_goals simp only [h.library, h.module, implies_true]

theorem refl (C : LibraryId → Prop) (s : Store) : Keeps C s s := of_quiet (.refl s)

theorem names (h : Keeps C s s') {t : Table Text LibraryId} (ht : s.Names t) : s'.Names t :=
  ht.of_names h.size.ge fun id _ => h.name id

end Keeps

theorem keeps_push (m : Module) : Keeps C s { s with modules := s.modules.push m } := by
  have hmodule : ∀ i < s.modules.size,
      ({ s with modules := s.modules.push m } : Store).module i = s.module i := by
    intro i hi
    rw [module_push, if_neg hi.ne]
  refine ⟨rfl, fun _ => rfl, fun _ => rfl, rfl, fun _ _ => rfl, by simp, fun i hi => ?_,
    fun i hi _ => hmodule i hi⟩
  rw [hmodule i hi]

theorem keeps_changeModule {id : ModuleId} {f : Module → Module}
    (hpath : (f (s.module id)).path = (s.module id).path)
    (h : ∃ j, (s.library j).name = firstSegment (s.module id).path ∧ ¬ C j) :
    Keeps C s { s with modules := s.modules.modify id f } := by
  refine ⟨rfl, fun _ => rfl, fun _ => rfl, rfl, fun _ _ => rfl, by simp, fun i hi => ?_,
    fun i hi hall => ?_⟩
  · rw [module_modify]
    split
    · rename_i hid
      rw [hid.1, hpath]
    · rfl
  · rw [module_modify, if_neg]
    rintro ⟨rfl, -⟩
    obtain ⟨j, hj, hC⟩ := h
    exact hC (hall j hj)

theorem keeps_changeLibrary {id : LibraryId} {f : Library → Library} (hid : ¬ C id)
    (hname : (f (s.library id)).name = (s.library id).name)
    (hdeps : (f (s.library id)).dependencies = (s.library id).dependencies) :
    Keeps C s { s with libraries := s.libraries.modify id f } := by
  refine ⟨by simp, fun j => ?_, fun j => ?_, rfl, fun j hj => ?_, le_rfl, fun _ _ => rfl,
    fun _ _ _ => rfl⟩
  · rw [library_modify]
    split
    · rename_i h
      rw [h.1, hname]
    · rfl
  · rw [library_modify]
    split
    · rename_i h
      rw [h.1, hdeps]
    · rfl
  · rw [library_modify, if_neg]
    rintro ⟨rfl, -⟩
    exact hid hj

/-- The store is sound again, and what has to be kept was kept if `P` holds. -/
def Advances (P : Prop) (C : LibraryId → Prop) (s s' : Store) : Prop :=
  s'.Sound ∧ (P → Keeps C s s')

theorem Sound.advances {P : Prop} (hs : s.Sound) : Advances P C s s :=
  ⟨hs, fun _ => .refl C s⟩

theorem Advances.trans {P : Prop} (h : Advances P C s s') (h' : Advances P C s' s'') :
    Advances P C s s'' :=
  ⟨h'.1, fun hP => (h.2 hP).trans (h'.2 hP)⟩

theorem Quiet.advances {P : Prop} (h : Quiet s s') (hs : s.Sound) : Advances P C s s' :=
  ⟨hs.of_quiet h, fun _ => .of_quiet h⟩

end Keeps

end Store

open Store LinkM

variable {P : Prop} {C : LibraryId → Prop} {s : Store}

/-! ## Reading -/

theorem quiet_note (n : Notice) : Quiet s { s with notices := s.notices ++ [n] } :=
  ⟨rfl, rfl, rfl, le_rfl⟩

theorem ends_notes {E : Store → Prop} (notices : List Notice) :
    Ends (fun _ => Quiet s) E (notices.forM note s) :=
  ends_forM (fun n _ _ h => h.trans (quiet_note n)) (.refl s)

/-- The declarations get numbers that were not used before, and nothing else changes. -/
theorem ends_stamp {ds : List Declaration} {E : Store → Prop} (h : ∀ d ∈ ds, d.serial = 0) :
    Ends (fun ds' s' => Quiet s s' ∧ ds'.map unstamped = ds ∧
      (∀ d ∈ ds', s.nextSerial ≤ d.serial ∧ d.serial < s'.nextSerial) ∧
      (ds'.map (·.serial)).Nodup) E (stamp ds s) := by
  unfold stamp
  induction ds generalizing s with
  | nil => exact ⟨.refl s, rfl, nofun, List.nodup_nil⟩
  | cons d ds ih =>
    rw [List.forall_mem_cons] at h
    rw [List.mapM_cons, if_pos h.1]
    apply ends_bind.2
    apply ends_bind.2
    apply ends_bind.2
    apply ends_get.2
    apply ends_bind.2
    apply ends_set.2
    apply ends_pure.2
    apply ends_pure.2
    apply ends_bind.2
    refine (ih h.2).mono (fun ds' s' => ?_) fun _ hE => hE
    rintro ⟨hquiet, hds, hfresh, hdistinct⟩
    have hlt : s.nextSerial < s'.nextSerial := hquiet.nextSerial
    have hlater : ∀ e ∈ ds', s.nextSerial < e.serial := fun e he => (hfresh e he).1
    refine ⟨⟨hquiet.libraries, hquiet.modules, hquiet.registry, hlt.le⟩, ?_, ?_, ?_⟩
    · rw [List.map_cons, hds, unstamped, ← h.1]
    · refine List.forall_mem_cons.2 ⟨⟨le_rfl, hlt⟩, fun e he => ?_⟩
      exact ⟨(hlater e he).le, (hfresh e he).2⟩
    · rw [List.map_cons, List.nodup_cons]
      refine ⟨fun hmem => ?_, hdistinct⟩
      obtain ⟨e, he, hserial⟩ := List.mem_map.1 hmem
      exact (hlater e he).ne' hserial

theorem Store.Sound.pluginsOf (hs : s.Sound) {scope : Scope} (h : s.Plain scope) :
    s.pluginsOf scope = [] := by
  unfold Store.pluginsOf
  cases ho : scope.owner with
  | alone libraries plugins => exact (h libraries plugins ho).2
  | library id => exact hs.plugins id
  | registry => exact hs.registryPlugins

theorem Store.Sound.librariesOf (hs : s.Sound) {scope : Scope} (h : s.Plain scope) :
    s.Names (s.librariesOf scope) := by
  unfold Store.librariesOf
  cases ho : scope.owner with
  | alone libraries plugins => exact (h libraries plugins ho).1
  | library id => exact hs.named id
  | registry => exact hs.registered

theorem ends_readSource {path source : Text} {isShader : Bool} {scope : Scope} (hs : s.Sound)
    (hscope : s.Plain scope) :
    Ends (fun o s' => Quiet s s' ∧ Numbered path o.declarations s'.nextSerial ∧
      ∀ d ∈ o.declarations, s.nextSerial ≤ d.serial) (Quiet s)
      (readSource path source isShader scope s) := by
  unfold readSource
  apply ends_bind.2
  apply ends_get.2
  rw [hs.pluginsOf hscope]
  apply ends_bind.2
  show Ends _ _ ((pure (Comment.strip source) : LinkM Text) s)
  apply ends_pure.2
  refine (ends_notes _).bind fun _ s₁ h₁ => ?_
  apply ends_bind.2
  apply ends_ofExcept.2
  refine ⟨fun o ho => ?_, fun _ _ => h₁⟩
  have hread := readAt_of_read ho
  refine (ends_stamp fun d hd => (hread.declarations d hd).serial).bind fun ds s₂ => ?_
  rintro ⟨h₂, hds, hfresh, hdistinct⟩
  refine ⟨h₁.trans h₂, ?_, fun d hd => h₁.nextSerial.trans (hfresh d hd).1⟩
  exact numbered_of_unstamped hread hds (fun d hd => (hfresh d hd).2) hdistinct

/-- Numbers that are not below the counter are not in use. -/
theorem Store.Sound.serial_ne (hs : s.Sound) {d : Declaration} (hd : s.nextSerial ≤ d.serial)
    (i : ModuleId) : ∀ e ∈ (s.module i).declarations, d.serial ≠ e.serial := by
  intro e he
  have hlt := (hs.numbered i).serial e he
  omega

theorem Store.Sound.unused_self (hs : s.Sound) (id : ModuleId) :
    s.Unused id (s.module id).declarations :=
  fun d hd i hi e he h => hi (hs.apart id i d hd e he h).symm

/-! ## Making and binding modules -/

theorem ends_makeModule {path source : Text} {isShader : Bool} {scope : Scope} (hs : s.Sound)
    (hscope : s.Plain scope) :
    Ends (fun id s' => Advances P C s s' ∧ s'.libraries = s.libraries ∧ id < s'.modules.size ∧
      (s'.module id).path = path ∧ (s'.module id).source = source ∧
      (s'.module id).scope = scope) Sound (makeModule path source scope isShader s) := by
  unfold makeModule
  apply ends_bind.2
  refine (ends_readSource hs hscope).mono (fun o s₁ => ?_) fun _ h => hs.of_quiet h
  rintro ⟨h₁, hds, hfresh⟩
  apply ends_bind.2
  apply ends_get.2
  apply ends_bind.2
  apply ends_set.2
  apply ends_pure.2
  have hs₁ := hs.of_quiet h₁
  let m : Module := { path, source, scope, isShader }
  have hunused : s₁.Unused s₁.modules.size (m.withOutline o).declarations := by
    intro d hd i _
    rw [h₁.module]
    exact hs.serial_ne (hfresh d hd) i
  have hsound : Sound { s₁ with modules := s₁.modules.push (m.withOutline o) } :=
    hs₁.push hds hunused (h₁.plain ▸ hscope)
  refine ⟨⟨hsound, fun _ => (Keeps.of_quiet h₁).trans (keeps_push _)⟩, h₁.libraries, ?_, ?_⟩
  · simp
  · rw [module_push, if_pos rfl]
    exact ⟨rfl, rfl, rfl⟩

theorem Store.path_changeModule (s : Store) (id : ModuleId) (f : Module → Module)
    (hf : ∀ m, (f m).path = m.path) (i : ModuleId) :
    (({ s with modules := s.modules.modify id f } : Store).module i).path = (s.module i).path := by
  rw [module_modify]
  split
  · exact hf _
  · rfl

theorem ends_bindModule {id : ModuleId} {scope : Scope} (hs : s.Sound) (hscope : s.Plain scope)
    (hP : P → ∃ j, (s.library j).name = firstSegment (s.module id).path ∧ ¬ C j) :
    Ends (fun _ s' => Advances P C s s' ∧ s'.libraries = s.libraries ∧
      ∀ i, (s'.module i).path = (s.module i).path) Sound (bindModule id scope s) := by
  unfold bindModule
  apply ends_bind.2
  apply ends_get.2
  by_cases hserial : (s.module id).scope.serial = scope.serial
  · rw [if_pos hserial]
    exact ⟨hs.advances, rfl, fun _ => rfl⟩
  · rw [if_neg hserial]
    apply ends_bind.2
    apply ends_modify.2
    -- the scope is changed first, and stays changed if the source cannot be read
    let f : Module → Module := fun m => { m with scope }
    let s₁ : Store := { s with modules := s.modules.modify id f }
    have hs₁ : s₁.Sound := hs.changeModule rfl (hs.numbered id) (hs.unused_self id) hscope
    have hpath₁ : ∀ i, (s₁.module i).path = (s.module i).path :=
      s.path_changeModule id f fun _ => rfl
    apply ends_bind.2
    refine (ends_readSource hs₁ hscope).mono (fun o s₂ => ?_) fun _ h => hs₁.of_quiet h
    rintro ⟨h₂, hds, hfresh⟩
    have hs₂ := hs₁.of_quiet h₂
    have hpath₂ : ∀ i, (s₂.module i).path = (s.module i).path := by
      rw [h₂.module]
      exact hpath₁
    apply ends_modify.2
    refine ⟨⟨?_, fun hp => ?_⟩, h₂.libraries, fun i => ?_⟩
    · refine hs₂.changeModule rfl ?_ (fun d hd i _ => ?_) (hs₂.plain id)
      · rw [hpath₂]
        exact hds
      · rw [h₂.module]
        exact hs₁.serial_ne (hfresh d hd) i
    · have hkeeps₂ : Keeps C s s₂ := (keeps_changeModule rfl (hP hp)).trans (.of_quiet h₂)
      refine hkeeps₂.trans (keeps_changeModule rfl ?_)
      rw [hpath₂, h₂.library]
      exact hP hp
    · exact (s₂.path_changeModule id (·.withOutline o) (fun _ => rfl) i).trans (hpath₂ i)

/-! ## Making the modules of a library -/

/-- The library has that name, and modules can be entered in it. -/
def Store.Open (id : LibraryId) (name : Text) (s : Store) : Prop :=
  (s.library id).name = name ∧ (id < s.libraries.size → (s.library id).isCompiled = true)

variable {id : LibraryId} {name : Text}

theorem Store.Open.of_libraries {s' : Store} (h : s.Open id name)
    (hl : s'.libraries = s.libraries) : s'.Open id name := by
  have hlibrary : s'.library = s.library := by
    funext j
    rw [library, library, hl]
  rw [Open, hlibrary, hl]
  exact h

theorem ends_enter {path : Text} {i : ModuleId} (hs : s.Sound) (hopen : s.Open id name)
    (hpath : firstSegment path = firstSegment name) (hi : path ≠ [] → (s.module i).path = path)
    (hC : P → ¬ C id) :
    Ends (fun _ s' => Advances P C s s' ∧ s'.Open id name) Sound
      (changeLibrary id (fun l => { l with modules := l.modules.insert path i }) s) := by
  apply ends_modify.2
  obtain ⟨hname, hcompiled⟩ := hopen
  refine ⟨⟨hs.changeLibrary rfl rfl (hs.named id) (fun _ hk => hk) (fun p hp => ?_)
      fun hlt hidle => ?_, fun hp => ?_⟩, ?_, fun hlt => ?_⟩
  · rcases Table.mem_of_mem_insert hp with rfl | hp
    · exact ⟨hname ▸ hpath, hi⟩
    · exact hs.placed id p hp
  · exact absurd ((hcompiled hlt).symm.trans hidle) nofun
  · exact keeps_changeLibrary (hC hp) rfl rfl
  · rw [library_modify]
    split <;> exact hname
  · rw [Array.size_modify] at hlt
    rw [library_modify, if_pos ⟨rfl, hlt⟩]
    exact hcompiled hlt

theorem plain_of_library {scope : Scope} {id : LibraryId} (h : scope.owner = .library id) :
    s.Plain scope := by
  intro libraries plugins howner
  rw [h] at howner
  cases howner

theorem ends_placeModule {scope : Scope} {path : Text} (source : Source) (hs : s.Sound)
    (hopen : s.Open id name) (hscope : scope.owner = .library id)
    (hpath : firstSegment path = firstSegment name) (hP : P → firstSegment name = name ∧ ¬ C id) :
    Ends (fun _ s' => Advances P C s s' ∧ s'.Open id name) Sound
      (placeModule id scope path source s) := by
  have henter : ∀ {s' : Store} {i : ModuleId}, Advances P C s s' → s'.libraries = s.libraries →
      (s'.module i).path = path → Ends (fun _ s'' => Advances P C s s'' ∧ s''.Open id name) Sound
        (changeLibrary id (fun l => { l with modules := l.modules.insert path i }) s') := by
    intro s' i hs' hl hi
    refine (ends_enter hs'.1 (hopen.of_libraries hl) hpath (fun _ => hi) fun hp => (hP hp).2).imp
      fun _ s'' h => ?_
    exact ⟨hs'.trans h.1, h.2⟩
  cases source with
  | code t =>
    unfold placeModule
    refine (ends_makeModule (P := P) (C := C) hs (plain_of_library hscope)).bind
      fun i s₁ => ?_
    rintro ⟨h₁, hl, -, hi, -⟩
    exact henter h₁ hl hi
  | built i =>
    unfold placeModule
    apply ends_bind.2
    apply ends_get.2
    by_cases hi : (s.module i).path ≠ path
    · rw [if_pos hi]
      exact hs
    · rw [if_neg hi]
      have hi := not_ne_iff.1 hi
      refine (ends_bindModule (P := P) (C := C) hs (plain_of_library hscope) fun hp => ?_).bind
        fun _ s₁ => ?_
      · refine ⟨id, ?_, (hP hp).2⟩
        rw [hopen.1, hi, hpath, (hP hp).1]
      · rintro ⟨h₁, hl, hpaths⟩
        exact henter h₁ hl ((hpaths i).trans hi)
  | unsupported sort => exact hs

theorem firstSegment_idOf (path name : Text) :
    firstSegment (idOf path name) = firstSegment path := by
  unfold idOf firstSegment
  induction path with
  | nil => rfl
  | cons c path ih => rw [List.cons_append, List.takeWhile_cons, List.takeWhile_cons, ih]

theorem firstSegment_child (path key : Text) :
    firstSegment (Tree.child path key) = firstSegment path := by
  unfold Tree.child
  split
  · rfl
  · exact firstSegment_idOf path key

/-- An invariant of what is done for each leaf of a tree. -/
theorem ends_forLeaves {α : Type} {I : Store → Prop} {E : Store → Prop}
    {act : Text → α → LinkM Unit} {g : Text}
    (step : ∀ path a s, firstSegment path = g → I s → Ends (fun _ => I) E (act path a s))
    (t : Tree α) {path : Text} (hpath : firstSegment path = g) (hs : I s) :
    Ends (fun _ => I) E (t.forLeaves act path s) := by
  induction t generalizing path s with
  | nil => exact hs
  | leaf key a rest ih =>
    unfold Tree.forLeaves
    have hchild := (firstSegment_child path key).trans hpath
    exact (step _ a s hchild hs).bind fun _ s' hs' => ih hpath hs'
  | branch key inner rest ihinner ihrest =>
    unfold Tree.forLeaves
    have hchild := (firstSegment_child path key).trans hpath
    exact (ihinner hchild hs).bind fun _ s' hs' => ihrest hpath hs'

theorem quiet_fresh (s : Store) : Quiet s { s with nextSerial := s.nextSerial + 1 } :=
  ⟨rfl, rfl, rfl, Nat.le_succ _⟩

/-- Making the modules of a library touches no other library. -/
theorem ends_makeModules (hs : s.Sound) (hopen : s.Open id name)
    (hP : P → firstSegment name = name ∧ ¬ C id) :
    Ends (fun _ s' => Advances P C s s') Sound (makeModules id s) := by
  unfold makeModules
  apply ends_bind.2
  apply ends_get.2
  apply ends_bind.2
  apply ends_bind.2
  apply ends_get.2
  apply ends_bind.2
  apply ends_set.2
  apply ends_pure.2
  have hfresh := quiet_fresh s
  have hs₁ := hs.of_quiet hfresh
  cases (s.library id).definition with
  | tree t =>
    refine (ends_forLeaves (g := firstSegment name)
      (I := fun s' => Advances P C s s' ∧ s'.Open id name) ?_ t (by rw [hopen.1]) ?_).imp
        fun _ _ h => h.1
    · intro path source s' hpath hs'
      refine (ends_placeModule source hs'.1.1 hs'.2 rfl hpath hP).imp fun _ s'' h => ?_
      exact ⟨hs'.1.trans h.1, h.2⟩
    · exact ⟨hfresh.advances hs, hopen.of_libraries rfl⟩
  | unusable => exact hs₁

end ShaderLink
