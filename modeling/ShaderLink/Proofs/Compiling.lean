import ShaderLink.Proofs.Exploring

/-!
# Compiling

A library that is compiled stays as it is while other libraries are compiled, with all its modules.
The libraries may depend on each other in a circle: a library that is just being compiled has all
its modules before anything is looked up in it.  So `compileAt` meets the contract `Compiles` for
every depth (`compiles_compileAt`), and so does `compile`.
-/

namespace ShaderLink

open Store LinkM

/-- A text that can be the first segment of a path. -/
def IsLibraryName (name : Text) : Prop := firstSegment name = name ∧ name ≠ []

/-- The library is compiled, or just being compiled. -/
def Store.IsCompiled (s : Store) (id : LibraryId) : Prop := (s.library id).isCompiled = true

/-- What compiling does to a store: the libraries that are compiled are kept, at least if a path can
lead to the library that is compiled now. -/
def Compiles (compile : LibraryId → LinkM Unit) : Prop :=
  ∀ id (s : Store), s.Sound →
    Ends (fun _ s' => Advances (IsLibraryName (s.library id).name) s.IsCompiled s s') Sound
      (compile id s)

theorem firstSegment_firstSegment (path : Text) :
    firstSegment (firstSegment path) = firstSegment path :=
  List.takeWhile_idem

section Pending

variable {s : Store} {p : Pending} {id : LibraryId}

theorem Pending.library_eq_ok_iff : p.library = .ok id ↔
    firstSegment p.reference.path ≠ [] ∧
      p.libraries.get? (firstSegment p.reference.path) = some id := by
  unfold library
  cases hname : libraryOf p.reference.path with
  | error fault =>
    constructor
    · intro h
      cases h
    · intro h
      rw [libraryOf_eq_ok_iff.2 ⟨rfl, h.1⟩] at hname
      cases hname
  | ok name =>
    obtain ⟨rfl, hne⟩ := libraryOf_eq_ok_iff.1 hname
    cases hget : p.libraries.get? (firstSegment p.reference.path) <;>
      simp [bind, Except.bind, pure, Except.pure, throw, throwThe, MonadExceptOf.throw, hne, hget]

theorem Pending.name_library (hp : s.Names p.libraries) (h : p.library = .ok id) :
    id < s.libraries.size ∧ (s.library id).name = firstSegment p.reference.path :=
  hp _ (Table.mem_of_get?_eq_some (library_eq_ok_iff.1 h).2)

theorem Pending.isLibraryName (hp : s.Names p.libraries) (h : p.library = .ok id) :
    IsLibraryName (s.library id).name := by
  rw [(name_library hp h).2]
  exact ⟨firstSegment_firstSegment _, (library_eq_ok_iff.1 h).1⟩

end Pending

theorem Store.Keeps.isCompiled {C : LibraryId → Prop} {s s' : Store} (h : Keeps C s s')
    {id : LibraryId} (hC : C id) (hid : s.IsCompiled id) : s'.IsCompiled id := by
  rw [IsCompiled, h.libraries id hC]
  exact hid

/-- What was kept until now is kept if a library is compiled. -/
theorem Store.Keeps.compiling {s s' s'' : Store} (h : Keeps s.IsCompiled s s')
    (h' : Keeps s'.IsCompiled s' s'') : Keeps s.IsCompiled s s'' :=
  h.trans (h'.mono fun _ hid => h.isCompiled hid hid)

section Compile

variable {compile : LibraryId → LinkM Unit} {s : Store}

theorem ends_reachWith (hcompile : Compiles compile) {libraries : Table Text LibraryId}
    (hlibraries : s.Names libraries) (roots : List Declaration) (hs : s.Sound) :
    Ends (fun _ s' => Advances True s.IsCompiled s s') Sound
      (reachWith compile roots libraries s) := by
  unfold reachWith
  apply ends_bind.2
  apply ends_get.2
  -- all tables in sight name libraries, so only libraries with proper names are compiled
  refine ends_explore (I := fun st r => Advances True s.IsCompiled s st ∧
    ∀ p ∈ r.pending, st.Names p.libraries) ?_ ?_ (fun _ _ h _ => h.1) (fun _ _ h => h.1.1) ?_
  · rintro st r r' ⟨hst, hnames⟩ hr
    have hstepped := Search.stepped st r
    rw [hr] at hstepped
    refine ⟨hst, ?_⟩
    cases hstepped with
    | dropped hpending =>
      intro q hq
      exact hnames q (hpending ▸ List.mem_cons_of_mem _ hq)
    | followed hpending =>
      intro q hq
      rcases List.mem_append.1 hq with hq | hq
      · obtain ⟨d, -, t, -, rfl⟩ := Search.mem_references.1 hq
        exact hst.1.named _
      · exact hnames q (hpending ▸ List.mem_cons_of_mem _ hq)
  · rintro st r id ⟨hst, hnames⟩ hr
    have hstepped := Search.stepped st r
    rw [hr] at hstepped
    cases hstepped with
    | needs hpending hlibrary hcompiled =>
      rename_i p rest
      have hp := hnames p (hpending ▸ List.mem_cons_self)
      refine (hcompile id st hst.1).imp fun _ st' hst' => ?_
      have hkeeps := hst'.2 (Pending.isLibraryName hp hlibrary)
      exact ⟨⟨hst'.1, fun _ => (hst.2 trivial).compiling hkeeps⟩,
        fun q hq => hkeeps.names (hnames q hq)⟩
  · refine ⟨hs.advances, fun q hq => ?_⟩
    obtain ⟨d, -, t, -, rfl⟩ := Search.mem_references.1 hq
    exact hlibraries

/-- Without plugins, a module is only given its surroundings. -/
theorem ends_applyTo_plain
    {reach : List Declaration → Table Text LibraryId → LinkM (List Declaration)} {i : ModuleId}
    {Q E : Store → Prop} (hplugins : s.pluginsOf (s.module i).scope = [])
    (hreach : Ends (fun found s₁ => Q { s₁ with modules := s₁.modules.modify i fun m =>
        { m with surroundings := some (.of m.path m.declarations m.imports found) } }) E
      (reach (s.module i).declarations (s.librariesOf (s.module i).scope) s)) :
    Ends (fun _ => Q) E (applyPluginsWith reach i s) := by
  unfold applyPluginsWith
  apply ends_bind.2
  apply ends_get.2
  refine hreach.bind fun found s₁ h₁ => ?_
  rw [hplugins]
  apply ends_bind.2
  exact ends_modify.2 h₁

theorem ends_applyPluginsWith (hcompile : Compiles compile) {i : ModuleId} (hs : s.Sound) :
    Ends (fun _ s' => s'.Sound ∧ ∃ s₁, ∃ seen : Module → Option Surroundings,
      Advances True s.IsCompiled s s₁ ∧ s' =
        { s₁ with modules := s₁.modules.modify i fun m => { m with surroundings := seen m } }) Sound
      (applyPluginsWith (reachWith compile) i s) := by
  have hlibraries := hs.librariesOf (hs.plain i)
  refine ends_applyTo_plain (hs.pluginsOf (hs.plain i))
    ((ends_reachWith hcompile hlibraries _ hs).imp fun found s₁ h₁ => ?_)
  refine ⟨?_, s₁, fun m => some (.of m.path m.declarations m.imports found), h₁, rfl⟩
  exact h₁.1.changeModule rfl (h₁.1.numbered i) (h₁.1.unused_self i) (h₁.1.plain i)

variable {P : Prop} {C : LibraryId → Prop}

theorem advances_applyPluginsWith (hcompile : Compiles compile) {i : ModuleId} (hs : s.Sound)
    (hC : P → ∀ id, C id → s.IsCompiled id)
    (hP : P → i < s.modules.size ∧
      ∃ j, (s.library j).name = firstSegment (s.module i).path ∧ ¬ C j) :
    Ends (fun _ s' => Advances P C s s') Sound (applyPluginsWith (reachWith compile) i s) := by
  refine (ends_applyPluginsWith hcompile hs).imp fun _ s' => ?_
  rintro ⟨hs', s₁, seen, h₁, rfl⟩
  refine ⟨hs', fun hp => ?_⟩
  have hkeeps := (h₁.2 trivial).mono (hC hp)
  refine hkeeps.trans (keeps_changeModule rfl ?_)
  obtain ⟨hlt, j, hj, hCj⟩ := hP hp
  refine ⟨j, ?_, hCj⟩
  rw [hkeeps.name, hkeeps.path i hlt]
  exact hj

/-- The inner part of a compilation: making the modules, and then going through them. -/
theorem ends_compileModules (hcompile : Compiles compile) {id : LibraryId} {name : Text}
    (hs : s.Sound) (hopen : s.Open id name) (hid : ¬ C id)
    (hC : IsLibraryName name → ∀ j, C j → s.IsCompiled j) :
    Ends (fun _ s' => Advances (IsLibraryName name) C s s') Sound
      ((do
        makeModules id
        let modules := ((← get).library id).modules.values
        modules.forM (applyPluginsWith (reachWith compile)) : LinkM Unit) s) := by
  refine (ends_makeModules (P := IsLibraryName name) (C := C) hs hopen fun hp => ⟨hp.1, hid⟩).bind
    fun _ s₁ h₁ => ?_
  apply ends_bind.2
  apply ends_get.2
  refine (ends_forM (I := Advances (IsLibraryName name) C s₁) (fun i hi s₂ h₂ => ?_)
    h₁.1.advances).imp fun _ _ h => h₁.trans h
  refine (advances_applyPluginsWith (P := IsLibraryName name) (C := C) hcompile h₂.1
    (fun hp j hj => ?_) fun hp => ?_).imp fun _ _ h => h₂.trans h
  · exact ((h₁.2 hp).trans (h₂.2 hp)).isCompiled hj (hC hp j hj)
  · obtain ⟨⟨path, i⟩, hmem, rfl⟩ := List.mem_map.1 hi
    obtain ⟨hsegment, hpath⟩ : firstSegment path = _ ∧ (path ≠ [] → (s₁.module i).path = path) :=
      h₁.1.placed id _ hmem
    rw [(h₁.2 hp).name, hopen.1, hp.1] at hsegment
    have hne : path ≠ [] := by
      rintro rfl
      exact hp.2 hsegment.symm
    have hlt : i < s₁.modules.size := by
      by_contra hle
      refine hne ?_
      rw [← hpath hne, module_of_size_le s₁ (not_lt.1 hle)]
    refine ⟨hlt.trans_le (h₂.2 hp).modules_size, id, ?_, hid⟩
    rw [(h₂.2 hp).path i hlt, hpath hne, hsegment, (h₂.2 hp).name, (h₁.2 hp).name, hopen.1]

theorem compiles_compileAt (depth : Nat) : Compiles (compileAt depth) := by
  induction depth with
  | zero => exact fun _ _ hs => hs
  | succ depth ih =>
    intro id s hs
    unfold compileAt
    apply ends_bind.2
    apply ends_get.2
    by_cases hid : (s.library id).isCompiled = true
    · rw [if_pos hid]
      exact hs.advances
    rw [if_neg hid]
    apply ends_bind.2
    apply ends_modify.2
    apply ends_bind.2
    apply ends_modify.2
    -- the library counts as compiled before its modules are made
    let s₁ : Store :=
      { s with libraries := s.libraries.modify id fun l => { l with isCompiled := true } }
    let s₂ : Store := { s₁ with notices := s₁.notices ++ [.compiling (s.library id).name] }
    have h₁ : Advances (IsLibraryName (s.library id).name) s.IsCompiled s s₁ :=
      ⟨hs.changeLibrary rfl rfl (hs.named id) (fun _ hk => hk) (hs.placed id) nofun,
        fun _ => keeps_changeLibrary hid rfl rfl⟩
    have h₂ : Advances (IsLibraryName (s.library id).name) s.IsCompiled s s₂ :=
      h₁.trans ((quiet_note _).advances h₁.1)
    have hopen : s₂.Open id (s.library id).name := by
      refine Open.of_libraries (s := s₁) ⟨?_, fun hlt => ?_⟩ rfl
      · rw [library_modify]
        split <;> rfl
      · rw [Array.size_modify] at hlt
        rw [library_modify, if_pos ⟨rfl, hlt⟩]
    refine (ends_tryCatch (Q := fun _ s₃ =>
      Advances (IsLibraryName (s.library id).name) s.IsCompiled s s₃) ?_).bind
        fun _ s₃ h₃ => ?_
    · refine (ends_compileModules (C := s.IsCompiled) ih h₂.1 hopen hid fun hp j hj => ?_).mono
        (fun _ s₃ h₃ => h₂.trans h₃) fun s₃ hs₃ fault => ?_
      · exact (h₂.2 hp).isCompiled hj hj
      · apply ends_bind.2
        apply ends_modify.2
        exact hs₃.changeLibrary rfl rfl (hs₃.named id) (fun _ hk => hk) nofun fun _ _ => rfl
    · apply ends_bind.2
      apply ends_get.2
      apply ends_modify.2
      exact h₃.trans ((quiet_note _).advances h₃.1)

theorem compiles_compile : Compiles ShaderLink.compile := by
  intro id s hs
  unfold ShaderLink.compile
  apply ends_bind.2
  apply ends_get.2
  exact compiles_compileAt _ id s hs

end Compile

end ShaderLink
