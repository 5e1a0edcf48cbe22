import ShaderLink.Proofs.Contents
import ShaderLink.Proofs.Visiting

/-!
# What compiling touches

A library is compiled only if something that is being compiled or linked refers to it.  So no
library outside of a set is touched, if the set has all libraries to which those in it refer
(`Store.Encloses`); and whatever the modules of a compiled library refer to is compiled as well
(`Store.Followed`).  `drawing_compileAt` shows both for every depth.
-/

namespace ShaderLink

open Store LinkM

namespace Store

/-- Each name is that of one library and a single segment. -/
structure WellNamed (s : Store) : Prop where
  unambiguous : s.Unambiguous
  segment : ∀ id < s.libraries.size, IsSegment (s.library id).name

/-- `W` has all libraries to which something in one of its libraries refers. -/
def Encloses (s : Store) (W : LibraryId → Prop) : Prop :=
  ∀ id, W id → ∀ r, s.Refers id r → ∀ id', LeadsTo (s.library id).dependencies r.path id' → W id'

/-- All libraries to which the module refers are compiled. -/
def FollowedIn (s : Store) (t : Table Text LibraryId) (i : ModuleId) : Prop :=
  ∀ d ∈ (s.module i).declarations, ∀ r ∈ d.references, ∀ id, LeadsTo t r.path id → s.IsCompiled id

/-- All libraries to which something in the library refers are compiled. -/
def Followed (s : Store) (id : LibraryId) : Prop :=
  ∀ p ∈ (s.library id).modules, s.FollowedIn (s.library id).dependencies p.2

/-- No library outside of `W` was touched. -/
structure Confines (W skip : LibraryId → Prop) (s s' : Store) : Prop where
  builds : Builds skip s s'
  within : ∀ id, ¬ W id → s'.library id = s.library id
  sound : s'.Sound
  fit : s'.Fit

/-- Besides, what was compiled before was kept, and everything was compiled to which something that
was compiled since then refers. -/
structure Draws (W skip : LibraryId → Prop) (s s' : Store) : Prop extends Confines W skip s s' where
  keeps : Keeps s.IsCompiled s s'
  followed : ∀ id, ¬ skip id → s'.IsCompiled id → s.IsCompiled id ∨ s'.Followed id

variable {W skip L : LibraryId → Prop} {M : ModuleId → Prop} {s s' s'' : Store} {id : LibraryId}
  {i : ModuleId} {t : Table Text LibraryId} {calls : Calls}

/-! ## What lasts -/

theorem Spares.name (h : Spares L M s s') (id : LibraryId) :
    (s'.library id).name = (s.library id).name := by
  show (s'.library id).bare.name = (s.library id).bare.name
  rw [h.bare]

theorem WellNamed.of_spares (hs : s.WellNamed) (h : Spares L M s s') : s'.WellNamed := by
  refine ⟨fun i hi j hj hij => ?_, fun id hid => ?_⟩
  · rw [h.size] at hi hj
    rw [h.name, h.name] at hij
    exact hs.unambiguous i hi j hj hij
  · rw [h.name]
    exact hs.segment id (h.size ▸ hid)

theorem Encloses.of_spares (hW : s.Encloses W) (hs : s.Clear) (h : Spares L M s s') :
    s'.Encloses W := by
  intro id hid r hr id' hleads
  rw [h.dependencies] at hleads
  exact hW id hid r ((hs.refers_of_spares h).1 hr) id' hleads

theorem Clear.of_builds (hs : s.Clear) (h : Builds skip s s') (hsound : s'.Sound) (hfit : s'.Fit)
    (hskip : ∀ id, skip id → s'.IsCompiled id → s'.Furnished id) : s'.Clear := by
  refine ⟨hsound, h.orderly.built, hfit, fun id hid => ?_⟩
  by_cases hid' : skip id
  · exact hskip id hid' hid
  · rcases h.filled id hid' hid with hold | ⟨ids, hfilled, -⟩
    · exact (hs.furnished id hold).of_spares h.frame (h.frame.libraries id hold)
    · exact hfilled.furnished

theorem Confines.clear (h : Confines W (fun _ => False) s s') (hs : s.Clear) : s'.Clear :=
  hs.of_builds h.builds h.sound h.fit fun _ hid => hid.elim

/-- The modules of a compiled library are below its name. -/
theorem Clear.firstSegment_module (hs : s.Clear) (hn : s.WellNamed) (hid : s.IsCompiled id)
    {p : Text × ModuleId} (hp : p ∈ (s.library id).modules) : p.2 < s.modules.size ∧
      id < s.libraries.size ∧ (s.library id).name ≠ [] ∧
        firstSegment (s.module p.2).path = (s.library id).name := by
  obtain ⟨leaf, hleaf, hkey, hfills⟩ := exists_of_forall₂_right (hs.furnished id hid) hp
  have hlt := lt_size_of_mem_leaves (Table.mem_of_mem_ofList hleaf)
  have hsegment : firstSegment (s.module p.2).path = (s.library id).name := by
    rw [hfills.path, hkey, (hs.placed id p hp).1, firstSegment_of_isSegment (hn.segment id hlt)]
  refine ⟨hfills.lt_size, hlt, ?_, hsegment⟩
  rw [← hsegment]
  exact (hs.fit.read p.2 hfills.lt_size).firstSegment_ne_nil

theorem Keeps.module_of_mem (h : Keeps s.IsCompiled s s') (hs : s.Clear) (hn : s.WellNamed)
    (hid : s.IsCompiled id) {p : Text × ModuleId} (hp : p ∈ (s.library id).modules) :
    s'.module p.2 = s.module p.2 := by
  obtain ⟨hlt, hsize, hne, hsegment⟩ := hs.firstSegment_module hn hid hp
  refine h.modules p.2 hlt fun j hj => ?_
  rwa [hn.unambiguous.eq_of_name hsize hne (hj.trans hsegment)]

theorem FollowedIn.mono (h : s.FollowedIn t i)
    (hdeclarations : (s'.module i).declarations = (s.module i).declarations)
    (hcompiled : ∀ id, s.IsCompiled id → s'.IsCompiled id) : s'.FollowedIn t i := by
  unfold FollowedIn
  rw [hdeclarations]
  exact fun d hd r hr id hleads => hcompiled id (h d hd r hr id hleads)

theorem Followed.of_keeps (hs : s.Clear) (hn : s.WellNamed) (hid : s.IsCompiled id)
    (h : s.Followed id) (hk : Keeps s.IsCompiled s s') : s'.Followed id := by
  unfold Followed
  rw [hk.libraries id hid]
  exact fun p hp => (h p hp).mono (by rw [hk.module_of_mem hs hn hid hp]) fun _ hj =>
    hk.isCompiled hj hj

/-- What the modules declare is all that counts, and what is compiled. -/
theorem Followed.of_alike (h : s.Followed id) (hlibrary : s'.library = s.library)
    (hdeclarations : ∀ i, (s'.module i).declarations = (s.module i).declarations) :
    s'.Followed id := by
  unfold Followed
  rw [hlibrary]
  refine fun p hp => (h p hp).mono (hdeclarations p.2) fun j hj => ?_
  rwa [IsCompiled, hlibrary]

/-- What a module of a library refers to is compiled, once the libraries are from which it imports:
all other names are of the library itself. -/
theorem Clear.followedIn (hs : s.Clear) (hn : s.WellNamed) (hid : s.IsCompiled id)
    {p : Text × ModuleId} (hp : p ∈ (s.library id).modules)
    (himports : ∀ d ∈ (s.module p.2).declarations, ∀ r ∈ d.references, r.origin = .imported →
      ∀ id', LeadsTo (s.library id).dependencies r.path id' → s.IsCompiled id') :
    s.FollowedIn (s.library id).dependencies p.2 := by
  intro d hd r hr id' hleads
  cases horigin : r.origin with
  | imported => exact himports d hd r hr horigin id' hleads
  | ambient =>
    obtain ⟨c, hc, hpath, -⟩ := (hs.numbered p.2).declared d hd r hr horigin
    rw [(hs.numbered p.2).path_eq c hc] at hpath
    obtain ⟨-, hlt, hne, hsegment⟩ := hs.firstSegment_module hn hid hp
    have hname : (s.library id').name = firstSegment r.path :=
      (hs.named id _ (Table.mem_of_get?_eq_some hleads.2)).2
    rw [← hpath, hsegment] at hname
    rwa [hn.unambiguous.eq_of_name hlt hne hname]

theorem Confines.refl (hs : s.Clear) : Confines W skip s s :=
  ⟨.refl hs.orderly, fun _ _ => rfl, hs.toSound, hs.fit⟩

theorem Draws.refl (hs : s.Clear) : Draws W skip s s where
  toConfines := .refl hs
  keeps := .refl _ s
  followed _ _ hid := Or.inl hid

theorem Confines.trans (h : Confines W skip s s') (h' : Confines W (fun _ => False) s' s'') :
    Confines W skip s s'' where
  builds := h.builds.trans h'.builds
  within id hid := (h'.within id hid).trans (h.within id hid)
  sound := h'.sound
  fit := h'.fit

theorem Draws.trans (h : Draws W skip s s') (hs' : s'.Clear) (hn' : s'.WellNamed)
    (h' : Draws W (fun _ => False) s' s'') : Draws W skip s s'' where
  toConfines := h.toConfines.trans h'.toConfines
  keeps := h.keeps.compiling h'.keeps
  followed id hskip hid := by
    rcases h'.followed id not_false hid with hold | hfollowed
    · exact (h.followed id hskip hold).imp_right fun h => h.of_keeps hs' hn' hold h'.keeps
    · exact Or.inr hfollowed

theorem Confines.called (h : Confines W skip s s') (h' : Called calls s' s'') :
    Confines W skip s s'' where
  builds := h.builds.called h'
  within id hid := by rw [h'.toQuiet.library, h.within id hid]
  sound := h.sound.of_quiet h'.toQuiet
  fit := h.fit.of_called h'

/-- A step after which the modules declare what they did, and the libraries are the same. -/
theorem Draws.alike (h : Draws W skip s s') (h' : Confines W skip s s'')
    (hkeeps : Keeps s.IsCompiled s s'') (hlibrary : s''.library = s'.library)
    (hdeclarations : ∀ i, (s''.module i).declarations = (s'.module i).declarations) :
    Draws W skip s s'' where
  toConfines := h'
  keeps := hkeeps
  followed id hskip hid := by
    rw [IsCompiled, hlibrary] at hid
    exact (h.followed id hskip hid).imp_right fun hfollowed =>
      hfollowed.of_alike hlibrary hdeclarations

theorem Draws.called (h : Draws W skip s s') (h' : Called calls s' s'') : Draws W skip s s'' := by
  have hquiet := h'.toQuiet
  refine h.alike (h.toConfines.called h') (h.keeps.trans (.of_quiet hquiet)) hquiet.library
    fun i => ?_
  rw [hquiet.module]

/-! ## Surroundings -/

/-- The store in which plugins see something else of a module. -/
def surround (s : Store) (i : ModuleId) (f : Module → Option Surroundings) : Store :=
  { s with modules := s.modules.modify i fun m => { m with surroundings := f m } }

theorem module_surround (s : Store) (i : ModuleId) (f : Module → Option Surroundings)
    (j : ModuleId) : ∃ o, (s.surround i f).module j = { s.module j with surroundings := o } := by
  unfold surround
  rw [module_modify]
  split
  · rename_i hj
    exact ⟨f (s.module i), by rw [hj.1]⟩
  · exact ⟨_, rfl⟩

theorem declarations_surround (s : Store) (i : ModuleId) (f : Module → Option Surroundings)
    (j : ModuleId) : ((s.surround i f).module j).declarations = (s.module j).declarations := by
  obtain ⟨o, hj⟩ := s.module_surround i f j
  rw [hj]

theorem scope_surround (s : Store) (i : ModuleId) (f : Module → Option Surroundings)
    (j : ModuleId) : ((s.surround i f).module j).scope = (s.module j).scope := by
  obtain ⟨o, hj⟩ := s.module_surround i f j
  rw [hj]

variable {f : Module → Option Surroundings}

/-- A module that is new may be changed. -/
theorem Keeps.surround {C : LibraryId → Prop} (h : Keeps C s s') (hi : s.modules.size ≤ i) :
    Keeps C s (s'.surround i f) := by
  have hmodule : ∀ j < s.modules.size, (s'.surround i f).module j = s'.module j := by
    intro j hj
    rw [Store.surround, module_modify, if_neg]
    rintro ⟨rfl, -⟩
    exact hi.not_gt hj
  refine { h with modules_size := ?_, path := fun j hj => ?_, modules := fun j hj hall => ?_ }
  · rw [Store.surround, Array.size_modify]
    exact h.modules_size
  · rw [hmodule j hj, h.path j hj]
  · rw [hmodule j hj, h.modules j hj hall]

theorem Sound.surround (hs : s.Sound) : (s.surround i f).Sound :=
  hs.changeModule rfl (hs.numbered i) (hs.unused_self i) (hs.plain i)

theorem Fit.surround (hs : s.Fit) : (s.surround i f).Fit := by
  refine ⟨fun j hj => ?_, fun j hj => ?_⟩
  all_goals
    rw [Store.surround, Array.size_modify] at hj
    obtain ⟨o, hmodule⟩ := s.module_surround i f j
    rw [hmodule]
  · exact hs.read j hj
  · exact hs.serial j hj

end Store

/-! ## Searching -/

/-- Compiling a library in `W` touches no library outside of it, and compiles what it refers to. -/
def Drawing (W : LibraryId → Prop) (compile : LibraryId → LinkM Unit) : Prop :=
  ∀ id (s : Store), s.Clear → s.WellNamed → s.Encloses W → W id →
    Ends (fun _ => Draws W (fun _ => False) s) (Confines W (fun _ => False) s) (compile id s)

theorem Pending.leadsTo_iff {p : Pending} {id : LibraryId} :
    p.library = .ok id ↔ LeadsTo p.libraries p.reference.path id :=
  library_eq_ok_iff

/-- The invariant of a search that began at `s`: what is pending leads into `W`, unless it is known
already, and no import of the roots is forgotten before its library is compiled. -/
structure Search.Drawn (W : LibraryId → Prop) (s : Store) (roots : List Declaration)
    (libraries : Table Text LibraryId) (store : Store) (r : Search) : Prop where
  draws : Draws W (fun _ => False) s store
  within : ∀ p ∈ r.pending, ∀ id, p.library = .ok id →
    W id ∨ p.reference.origin = .ambient ∧ p.reference.id ∈ r.seen
  imports : ∀ d ∈ roots, ∀ x ∈ d.references, x.origin = .imported →
    ⟨x, d.id, libraries⟩ ∈ r.pending ∨ ∀ id, LeadsTo libraries x.path id → store.IsCompiled id

section Searching

variable {W : LibraryId → Prop} {s store store' : Store} {roots : List Declaration}
  {libraries : Table Text LibraryId} {r r' : Search} {id : LibraryId}
  {compile : LibraryId → LinkM Unit}

namespace Search

theorem drawn_start (hs : s.Clear)
    (hroots : ∀ d ∈ roots, ∀ x ∈ d.references, ∀ id, LeadsTo libraries x.path id →
      W id ∨ x.origin = .ambient ∧ x.id ∈ roots.map (·.id)) :
    Drawn W s roots libraries s (start roots libraries) := by
  refine ⟨.refl hs, fun p hp id hid => ?_, fun d hd x hx _ => Or.inl ?_⟩
  · obtain ⟨d, hd, x, hx, rfl⟩ := mem_references.1 hp
    exact hroots d hd x hx id (Pending.leadsTo_iff.1 hid)
  · exact mem_references.2 ⟨d, hd, x, hx, rfl⟩

/-- The next import was looked up, and the others are still pending. -/
theorem Drawn.imports_tail (h : Drawn W s roots libraries store r) {p : Pending}
    {rest : List Pending} (hpending : r.pending = p :: rest)
    (hcheck : p.reference.origin = .imported → ∃ id ds, Leads store p id ds) {d : Declaration}
    (hd : d ∈ roots) {x : Reference} (hx : x ∈ d.references) (horigin : x.origin = .imported) :
    ⟨x, d.id, libraries⟩ ∈ rest ∨ ∀ id, LeadsTo libraries x.path id → store.IsCompiled id := by
  rcases h.imports d hd x hx horigin with hmem | hcompiled
  · rw [hpending] at hmem
    rcases List.mem_cons.1 hmem with rfl | hmem
    · obtain ⟨id, ds, hleads⟩ := hcheck horigin
      refine Or.inr fun id' hid' => ?_
      have heq := hleads.library.symm.trans (Pending.leadsTo_iff.2 hid')
      exact Except.ok.inj heq ▸ hleads.compiled
    · exact Or.inl hmem
  · exact Or.inr hcompiled

theorem Drawn.moved (hs : s.Clear) (hW : s.Encloses W)
    (h : Drawn W s roots libraries store r) (hmoved : r.step store = .moved r') :
    Drawn W s roots libraries store r' := by
  have hstepped := stepped store r
  rw [hmoved] at hstepped
  cases hstepped with
  | dropped hpending hseen hcheck =>
    exact ⟨h.draws, fun p hp => h.within p (hpending ▸ List.mem_cons_of_mem _ hp),
      fun d hd x hx => h.imports_tail hpending hcheck hd hx⟩
  | @followed p rest id ds hpending hnew hleads =>
    have hp : W id := (h.within p (hpending ▸ List.mem_cons_self) id hleads.library).resolve_right
      fun hknown => hnew hknown.2
    obtain ⟨i, hi, -, hds⟩ := hleads.exists_stands
    refine ⟨h.draws, fun q hq id' hid' => ?_, fun d hd x hx horigin => ?_⟩
    · rcases List.mem_append.1 hq with hq | hq
      · -- what is found in a library of `W` refers to libraries of `W`
        obtain ⟨d, hd, x, hx, rfl⟩ := mem_references.1 hq
        have hrefers : store.Refers id x := ((h.draws.clear hs).refers_iff hleads.compiled).2
          ⟨_, Table.mem_of_get?_eq_some hi.module, d, ((hds d).1 hd).1, hx⟩
        exact Or.inl ((hW.of_spares hs h.draws.builds.frame) id hp x hrefers id'
          (Pending.leadsTo_iff.1 hid'))
      · exact (h.within q (hpending ▸ List.mem_cons_of_mem _ hq) id' hid').imp_right fun hknown =>
          ⟨hknown.1, List.mem_cons_of_mem _ hknown.2⟩
    · exact (h.imports_tail hpending (fun _ => ⟨id, ds, hleads⟩) hd hx horigin).imp_left
        (List.mem_append_right _)

/-- A search asks only for libraries in `W`. -/
theorem Drawn.of_needs (h : Drawn W s roots libraries store r)
    (hneeds : r.step store = .needs id r') : r' = r ∧ W id := by
  have hstepped := stepped store r
  rw [hneeds] at hstepped
  cases hstepped with
  | needs hpending hlibrary hcompiled =>
    refine ⟨rfl, (h.within _ (hpending ▸ List.mem_cons_self) id hlibrary).resolve_right ?_⟩
    rintro ⟨horigin, hseen⟩
    exact new_of_needs hneeds hpending horigin hseen

theorem Drawn.compiled (hs : s.Clear) (hn : s.WellNamed) (h : Drawn W s roots libraries store r)
    (h' : Draws W (fun _ => False) store store') : Drawn W s roots libraries store' r := by
  refine ⟨h.draws.trans (h.draws.clear hs) (hn.of_spares h.draws.builds.frame) h', h.within,
    fun d hd x hx horigin => ?_⟩
  refine (h.imports d hd x hx horigin).imp_right fun hcompiled id hid => ?_
  exact h'.keeps.isCompiled (hcompiled id hid) (hcompiled id hid)

end Search

/-- Searching touches no library outside of `W`, and compiles those from which the roots import. -/
theorem ends_reachWith_draws (hcompile : Drawing W compile) (hs : s.Clear) (hn : s.WellNamed)
    (hW : s.Encloses W)
    (hroots : ∀ d ∈ roots, ∀ x ∈ d.references, ∀ id, LeadsTo libraries x.path id →
      W id ∨ x.origin = .ambient ∧ x.id ∈ roots.map (·.id)) :
    Ends (fun _ s' => Draws W (fun _ => False) s s' ∧ ∀ d ∈ roots, ∀ x ∈ d.references,
        x.origin = .imported → ∀ id, LeadsTo libraries x.path id → s'.IsCompiled id)
      (Confines W (fun _ => False) s) (reachWith compile roots libraries s) := by
  unfold reachWith
  apply ends_bind.2
  apply ends_get.2
  refine ends_explore (I := Search.Drawn W s roots libraries) (fun _ _ _ h => h.moved hs hW) ?_
    (fun store r h hpending => ⟨h.draws, fun d hd x hx horigin => ?_⟩)
    (fun _ _ h => h.draws.toConfines) (Search.drawn_start hs hroots)
  · intro store r id h hneeds
    obtain ⟨-, hid⟩ := h.of_needs hneeds
    have hframe := h.draws.builds.frame
    refine (hcompile id store (h.draws.clear hs) (hn.of_spares hframe) (hW.of_spares hs hframe)
      hid).mono (fun _ store' h' => h.compiled hs hn h') fun store' h' => ?_
    exact h.draws.toConfines.trans h'
  · exact (h.imports d hd x hx horigin).resolve_left (by rw [hpending]; exact List.not_mem_nil)

end Searching

/-! ## Compiling -/

/-- The invariant of a compilation that began at `s`: all that the modules of the library refer to
is compiled, unless they are still to be worked on. -/
structure Store.Tours (W : LibraryId → Prop) (s : Store) (id : LibraryId) (todo : List ModuleId)
    (s' : Store) : Prop extends Draws W (fun j => j = id) s s' where
  equips : s.Equips id todo s'
  owner : ∀ p ∈ (s'.library id).modules, (s'.module p.2).scope.owner = .library id
  entered : todo ⊆ (s'.library id).modules.values
  visited : ∀ p ∈ (s'.library id).modules,
    p.2 ∈ todo ∨ s'.FollowedIn (s'.library id).dependencies p.2

section Compiling

variable {W : LibraryId → Prop} {s s₁ s₂ s₃ : Store} {id : LibraryId} {i : ModuleId}
  {todo : List ModuleId} {calls : Calls}

namespace Store.Tours

theorem clear (h : s.Tours W id todo s₁) (hs : s.Clear) : s₁.Clear := by
  refine hs.of_builds h.builds h.sound h.fit ?_
  rintro _ rfl -
  obtain ⟨ids, -, hfilled, -⟩ := h.equips.filled
  exact hfilled.furnished

theorem isCompiled (h : s.Tours W id todo s₁) {p : Text × ModuleId}
    (hp : p ∈ (s₁.library id).modules) : s₁.IsCompiled id := by
  refine h.equips.compiled.resolve_right fun hid => ?_
  rw [library_of_size_le s₁ hid] at hp
  exact List.not_mem_nil hp

/-- A module of the library was searched for what it needs, and given its surroundings. -/
theorem apply (h : s.Tours W id (i :: todo) s₁) (hs : s.Clear) (hn : s.WellNamed)
    (hid : ¬ s.IsCompiled id) (h₂ : Draws W (fun _ => False) s₁ s₂)
    (himports : ∀ d ∈ (s₁.module i).declarations, ∀ r ∈ d.references, r.origin = .imported →
      ∀ id', LeadsTo (s₁.library id).dependencies r.path id' → s₂.IsCompiled id')
    {f : Module → Option Surroundings} (hequips : s.Equips id todo (s₂.surround i f)) :
    s.Tours W id todo (s₂.surround i f) := by
  have hs₁ := h.clear hs
  have hn₁ := hn.of_spares h.builds.frame
  have hs₂ := h₂.clear hs₁
  have hn₂ := hn₁.of_spares h₂.builds.frame
  obtain ⟨p, hp, rfl⟩ := List.mem_map.1 (h.entered List.mem_cons_self)
  have hid₁ := h.isCompiled hp
  have hid₂ := h₂.keeps.isCompiled hid₁ hid₁
  have hlibrary : s₂.library id = s₁.library id := h₂.keeps.libraries id hid₁
  have hmodule : ∀ q ∈ (s₁.library id).modules, s₂.module q.2 = s₁.module q.2 :=
    fun q hq => h₂.keeps.module_of_mem hs₁ hn₁ hid₁ hq
  have hpath : firstSegment (s₂.module p.2).path = (s₂.library id).name :=
    (hs₂.firstSegment_module hn₂ hid₂ (hlibrary ▸ hp)).2.2.2
  have hvisited : ∀ q ∈ (s₁.library id).modules,
      q.2 ∈ todo ∨ s₂.FollowedIn (s₂.library id).dependencies q.2 := by
    intro q hq
    rw [hlibrary]
    rcases h.visited q hq with hmem | hfollowed
    · rcases List.mem_cons.1 hmem with heq | hmem
      · rw [heq, ← hlibrary]
        refine Or.inr (hs₂.followedIn hn₂ hid₂ (hlibrary ▸ hp) ?_)
        rwa [hmodule p hp, hlibrary]
      · exact Or.inl hmem
    · exact Or.inr (hfollowed.mono (by rw [hmodule q hq]) fun j hj => h₂.keeps.isCompiled hj hj)
  have hdraws := h.toDraws.trans hs₁ hn₁ h₂
  refine ⟨hdraws.alike ⟨hequips.builds, hdraws.within, hs₂.surround, hs₂.fit.surround⟩ ?_ rfl
    (s₂.declarations_surround p.2 f), hequips, ?_, ?_, ?_⟩
  · exact hdraws.keeps.trans (keeps_changeModule rfl ⟨id, hpath.symm, hid⟩)
  · intro q hq
    replace hq : q ∈ (s₁.library id).modules := hlibrary ▸ hq
    rw [scope_surround, hmodule q hq]
    exact h.owner q hq
  · intro j hj
    show j ∈ (s₂.library id).modules.values
    rw [hlibrary]
    exact h.entered (List.mem_cons_of_mem p.2 hj)
  · intro q hq
    refine (hvisited q (hlibrary ▸ hq)).imp_right fun hfollowed => ?_
    exact hfollowed.mono (s₂.declarations_surround p.2 f q.2) fun j hj => hj

/-- The library is finished. -/
theorem finish (h : s.Tours W id [] s₁) : Draws W (fun _ => False) s s₁ where
  builds := h.equips.finish
  within := h.within
  sound := h.sound
  fit := h.fit
  keeps := h.keeps
  followed j _ hj := by
    by_cases hne : j = id
    · subst hne
      exact Or.inr fun p hp => (h.visited p hp).resolve_left List.not_mem_nil
    · exact h.followed j hne hj

end Store.Tours

theorem Store.Sound.begun (hs : s.Sound) (id : LibraryId) : (s.begun id).Sound := by
  have hchanged : Sound
      { s with libraries := s.libraries.modify id fun l => { l with isCompiled := true } } :=
    hs.changeLibrary rfl rfl (hs.named id) (fun _ hk => hk) (hs.placed id) nofun
  exact hchanged.of_quiet (quiet_note _)

theorem Store.keeps_begun (hid : ¬ s.IsCompiled id) : Keeps s.IsCompiled s (s.begun id) := by
  have hchanged : Keeps s.IsCompiled s
      { s with libraries := s.libraries.modify id fun l => { l with isCompiled := true } } :=
    keeps_changeLibrary hid rfl rfl
  exact hchanged.trans (.of_quiet (quiet_note _))

/-- The modules of the library are made, and none of them was worked on. -/
theorem ends_makeModules_tours (hs : s.Clear) (hn : s.WellNamed) (hid : ¬ s.IsCompiled id)
    (hW : W id) :
    Ends (fun _ s₁ => s.Tours W id (s₁.library id).modules.values s₁)
      (Confines W (fun j => j = id) s) (makeModules id (s.begun id)) := by
  have hbegun : Spares (fun j => j ≠ id) (fun _ => True) s (s.begun id) := spares_begun s id
  have hname : ((s.begun id).library id).name = (s.library id).name := hbegun.name id
  have hopen : (s.begun id).Open id (s.library id).name := by
    refine ⟨hname, fun hlt => ?_⟩
    exact (isCompiled_begun s id).resolve_right (by rw [← hbegun.size]; exact not_le.2 hlt)
  have hbuilt : ∀ i, (s.begun id).IsLeaf id i → i < (s.begun id).modules.size := by
    rw [hbegun.isLeaf]
    exact fun i hi => (hs.built id i hi).trans_le hbegun.modules_size
  have hempty : ((s.begun id).library id).modules = [] := by
    rw [library_begun]
    split <;> exact hs.orderly.idle id hid
  have hplugins : ((s.begun id).library id).plugins = [] :=
    (hbegun.plugins id).trans (hs.plugins id)
  have hfit : (s.begun id).Fit := hs.fit.of_modules rfl le_rfl
  have hsegment : firstSegment (s.library id).name = (s.library id).name := by
    by_cases hlt : id < s.libraries.size
    · exact firstSegment_of_isSegment (hn.segment id hlt)
    · rw [library_of_size_le s (not_lt.1 hlt)]
      rfl
  have hwithin : ∀ {M : ModuleId → Prop} {s₁}, Spares (fun j => j ≠ id) M (s.begun id) s₁ →
      ∀ j, j ≠ id → s₁.library j = s.library j :=
    fun h j hj => (h.libraries j hj).trans (hbegun.libraries j hj)
  have hne : ∀ j, ¬ W j → j ≠ id := fun j hj heq => hj (heq ▸ hW)
  refine (((ends_makeModules_equips hs.orderly hid).and (ends_makeModules (P := True)
    (C := s.IsCompiled) (hs.begun id) hopen fun _ => ⟨hsegment, hid⟩)).and ((ends_makeModules_fit
      hfit hplugins hbuilt hempty).and (ends_makeModules_placed hbuilt hempty))).mono
        (fun _ s₁ => ?_) fun s₁ => ?_
  · rintro ⟨⟨hequips, hs₁, hkeeps⟩, ⟨hfit₁, howner⟩, ids, hplaced⟩
    have hlibrary := hwithin hplaced.spares
    refine ⟨⟨⟨hequips.builds, fun j hj => hlibrary j (hne j hj), hs₁, hfit₁⟩,
      (keeps_begun hid).trans (hkeeps trivial), fun j hj hcompiled => Or.inl ?_⟩, hequips, howner,
      fun _ hj => hj, fun p hp => Or.inl (List.mem_map_of_mem hp)⟩
    rwa [IsCompiled, hlibrary j hj] at hcompiled
  · rintro ⟨⟨hbuilds, hs₁⟩, hfit₁, hspares, -⟩
    exact ⟨hbuilds, fun j hj => hwithin hspares j (hne j hj), hs₁, hfit₁⟩

/-- The next module is worked on. -/
theorem ends_applyPluginsWith_tours {compile : LibraryId → LinkM Unit}
    (hbuilding : Building compile) (hcompile : Drawing W compile) (hs : s.Clear) (hn : s.WellNamed)
    (hW : s.Encloses W) (hid : ¬ s.IsCompiled id) (hidW : W id) (h : s.Tours W id (i :: todo) s₁) :
    Ends (fun _ => s.Tours W id todo) (Confines W (fun j => j = id) s)
      (applyPluginsWith (reachWith compile) i s₁) := by
  have hs₁ := h.clear hs
  have hn₁ := hn.of_spares h.builds.frame
  have hW₁ := hW.of_spares hs h.builds.frame
  obtain ⟨p, hp, rfl⟩ := List.mem_map.1 (h.entered List.mem_cons_self)
  have hid₁ := h.isCompiled hp
  have hlibraries : s₁.librariesOf (s₁.module p.2).scope = (s₁.library id).dependencies := by
    rw [librariesOf, h.owner p hp]
  have hroots : ∀ d ∈ (s₁.module p.2).declarations, ∀ x ∈ d.references, ∀ id',
      LeadsTo (s₁.library id).dependencies x.path id' → W id' ∨ x.origin = .ambient ∧
        x.id ∈ (s₁.module p.2).declarations.map (·.id) := by
    intro d hd x hx id' hleads
    exact Or.inl (hW₁ id hidW x ((hs₁.refers_iff hid₁).2 ⟨p, hp, d, hd, hx⟩) id' hleads)
  have hplain : Ends (fun _ s₃ => ∃ s₂ f, Draws W (fun _ => False) s₁ s₂ ∧
      (∀ d ∈ (s₁.module p.2).declarations, ∀ x ∈ d.references, x.origin = .imported → ∀ id',
        LeadsTo (s₁.library id).dependencies x.path id' → s₂.IsCompiled id') ∧
      s₃ = s₂.surround p.2 f) (Confines W (fun _ => False) s₁)
        (applyPluginsWith (reachWith compile) p.2 s₁) := by
    refine ends_applyTo_plain (hs₁.pluginsOf (hs₁.plain p.2)) ?_
    rw [hlibraries]
    exact (ends_reachWith_draws hcompile hs₁ hn₁ hW₁ hroots).imp fun found s₂ h₂ =>
      ⟨s₂, _, h₂.1, h₂.2, rfl⟩
  refine (hplain.and (ends_applyPluginsWith_equips hbuilding hid h.equips)).mono (fun _ s₃ => ?_)
    fun s₃ h' => h.toConfines.trans h'.1
  rintro ⟨⟨s₂, f, h₂, himports, rfl⟩, hequips⟩
  exact h.apply hs hn hid h₂ himports hequips

/-- A library that is given up touches no others. -/
theorem Store.Confines.giveUp (h : Confines W (fun j => j = id) s s₁) (hid : ¬ s.IsCompiled id)
    (hW : W id) : Confines W (fun _ => False) s (s₁.givenUp id) where
  builds := h.builds.giveUp hid
  within j hj := by
    rw [(spares_givenUp (M := fun _ => True) s₁ id).libraries j fun heq => hj (heq ▸ hW)]
    exact h.within j hj
  sound := h.sound.changeLibrary rfl rfl (h.sound.named id) (fun _ hk => hk) nofun fun _ _ => rfl
  fit := h.fit.of_modules rfl le_rfl

theorem drawing_compileAt (W : LibraryId → Prop) (depth : Nat) : Drawing W (compileAt depth) := by
  induction depth with
  | zero => exact fun _ _ hs _ _ _ => .refl hs
  | succ depth ih =>
    intro id s hs hn hW hid
    exact ends_compileAt_succ (I := s.Tours W id) (J := Confines W (fun j => j = id) s)
      (fun _ => .refl hs) (fun hnot => ends_makeModules_tours hs hn hnot hid)
      (fun hnot _ _ _ h => ends_applyPluginsWith_tours (building_compileAt depth) ih hs hn hW hnot
        hid h)
      (fun hnot _ h => h.giveUp hnot hid) fun _ _ n h => h.finish.called (called_note n)

theorem drawing_compile (W : LibraryId → Prop) : Drawing W ShaderLink.compile := by
  intro id s hs hn hW hid
  unfold ShaderLink.compile
  apply ends_bind.2
  apply ends_get.2
  exact drawing_compileAt W _ id s hs hn hW hid

end Compiling

end ShaderLink
