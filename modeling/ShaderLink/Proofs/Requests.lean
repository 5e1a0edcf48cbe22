import ShaderLink.Proofs.Atomicity
import ShaderLink.Proofs.Serials
import ShaderLink.Proofs.Sessions

/-!
# Sequences of requests

Libraries are compiled because someone asks for that, looks something up, or links a shader; in
between they may get further plugins and dependencies (`Request`).  Whatever is asked for, and
whether it fails or not, each library is as it was made, or some request has compiled it to the end,
and then it stays so; and a request calls plugins for no others than those that it compiles
(`Request.Tallies`): `requests_atomic`.
-/

namespace ShaderLink

open LinkM Store

/-! ## One request -/

/-- What can be asked for. -/
inductive Request where
  | compile (id : LibraryId)
  | lookup (id : LibraryId) (path name : Text) (origin : Origin) (user : Text)
  | link (code : Text)
  | addPlugin (id : LibraryId) (p : Plugin)
  | addShaderPlugin (p : Plugin)
  | addDependency (id dependency : LibraryId)

namespace Request

/-- Does what is asked for; what it returns is left out. -/
def run : Request → LinkM Unit
  | compile id => ShaderLink.compile id
  | lookup id path name origin user => do
    let _ ← ShaderLink.lookup id path name origin user
  | link code => do
    let _ ← Registry.link code
  | addPlugin id p => changeLibrary id fun l => { l with plugins := l.plugins ++ [p] }
  | addShaderPlugin p => Registry.addPlugin p
  | addDependency id dependency => LinkM.addDependency id dependency

/-- The libraries that are asked for exist. -/
def InRange (size : Nat) : Request → Prop
  | compile id => id < size
  | lookup id .. => id < size
  | link _ => True
  | addPlugin id _ => id < size
  | addShaderPlugin _ => True
  | addDependency id dependency => id < size ∧ dependency < size

instance (size : Nat) : (r : Request) → Decidable (r.InRange size)
  | compile id => inferInstanceAs (Decidable (id < size))
  | lookup id .. => inferInstanceAs (Decidable (id < size))
  | link _ => inferInstanceAs (Decidable True)
  | addPlugin id _ => inferInstanceAs (Decidable (id < size))
  | addShaderPlugin _ => inferInstanceAs (Decidable True)
  | addDependency id dependency => inferInstanceAs (Decidable (id < size ∧ dependency < size))

end Request

namespace Store

variable {s s' s'' : Store} {id : LibraryId} {done : Ledger} {broken : Tried} {own : Calls}

/-- The library is as it was made. -/
def Idle (s : Store) (id : LibraryId) : Prop := ¬ s.IsCompiled id ∧ (s.library id).modules = []

/-- What happened to a store: libraries that were compiled keep their modules, all others that are
not compiled now are as they were made, and what was complete stays so. -/
structure Serves (s s' : Store) : Prop where
  regular : s'.Regular
  size : s'.libraries.size = s.libraries.size
  compiled : ∀ id, s.IsCompiled id → s'.IsCompiled id
  modules : ∀ id, s.IsCompiled id → (s'.library id).modules = (s.library id).modules
  complete : ∀ id plugins work, s.Complete id plugins work → s'.Complete id plugins work

theorem Tallies.serves (h : Tallies (fun _ => False) s s' done broken own) : s.Serves s' where
  regular := h.regular
  size := h.frame.size
  compiled _ := h.frame.isCompiled
  modules id hid := by rw [h.frame.libraries id hid]
  complete _ _ _ hcomplete := hcomplete.of_frame h.frame

/-- Only plugins or dependencies were changed, and no plugin was called. -/
structure Adjusts (s s' : Store) : Prop extends Serves s s' where
  isCompiled_eq : s'.IsCompiled = s.IsCompiled
  leaves_eq : ∀ id, (s'.library id).leaves = (s.library id).leaves
  calls_eq : s'.calls = s.calls

/-- Libraries were compiled, each to the end, or were interrupted, and besides the calls for these
there were some for the shader. -/
def Links (s s' : Store) (broken : Tried) : Prop :=
  ∃ done own, Tallies (fun _ => False) s s' done broken own ∧
    own.Partly s.registry.plugins Registry.shaderPath

theorem Links.regular (h : s.Links s' broken) : s'.Regular := by
  obtain ⟨done, own, htallies, -⟩ := h
  exact htallies.regular

theorem Links.trans_grows (h : s.Links s' []) (h' : s'.Grows s'') : s.Links s'' [] := by
  obtain ⟨done, own, htallies, hown⟩ := h
  obtain ⟨done', htallies'⟩ := h'
  exact ⟨_, _, htallies.trans (fun _ h => h.elim) htallies', (List.append_nil own).symm ▸ hown⟩

theorem Links.trans_rests (h : s.Links s' []) (h' : s'.Rests s'') :
    ∃ broken, s.Links s'' broken := by
  obtain ⟨done, own, htallies, hown⟩ := h
  obtain ⟨done', broken, htallies'⟩ := h'
  exact ⟨broken, _, _, htallies.trans (fun _ h => h.elim) htallies',
    (List.append_nil own).symm ▸ hown⟩

end Store

section Requests

variable {s : Store}

theorem atomic_compile : Atomic ShaderLink.compile := by
  intro id s hs hid
  unfold ShaderLink.compile
  apply ends_bind.2
  apply ends_get.2
  exact atomic_compileAt _ id s hs hid

theorem ends_compile_grows (hs : s.Regular) {id : LibraryId} (hid : id < s.libraries.size) :
    Ends (fun _ => s.Grows) s.Rests (compile id s) :=
  (atomic_compile id s hs hid).mono (fun _ _ h => h.1) fun _ h => h.1

theorem plugins_compile (hs : s.Regular) {id : LibraryId} (hid : id < s.libraries.size)
    (id' : LibraryId) : ((compile id s).2.library id').plugins = (s.library id').plugins :=
  ((ends_compile_grows hs hid).mono (fun _ _ h => h.rests) fun _ h => h).snd.frame.plugins id'

theorem ends_lookup_grows (hs : s.Regular) {id : LibraryId} (hid : id < s.libraries.size)
    (path name : Text) (origin : Origin) (user : Text) :
    Ends (fun _ => s.Grows) s.Rests (lookup id path name origin user s) := by
  unfold lookup
  refine (ends_compile_grows hs hid).bind fun _ s' h => ?_
  apply ends_bind.2
  apply ends_get.2
  exact ends_ofExcept.2 ⟨fun _ _ => h, fun _ _ => h.rests⟩

/-- A new module was made for a shader.  It belongs to no library, and was read with the plugins of
the registry. -/
structure Store.Introduces (s : Store) (i : ModuleId) (read : Calls) (s' : Store) : Prop where
  tallies : Tallies (fun _ => False) s s' [] [] read
  new : s.modules.size ≤ i
  lt_size : i < s'.modules.size
  path : (s'.module i).path = Registry.shaderPath
  owner : (s'.module i).scope.owner = .registry
  reads : read.Reads s.registry.plugins

namespace Store.Introduces

variable {s₁ s₂ s₃ : Store} {i : ModuleId} {read calls : Calls}

/-- The module stays as it is while libraries are compiled for it. -/
theorem module_eq (h : s.Introduces i read s₁) (hs : s.Regular) (hgrows : s₁.Grows s₂) :
    s₂.module i = s₁.module i := by
  refine hgrows.rests.frame.modules i h.lt_size ?_
  rintro ⟨id, -, path, hleaf⟩
  rw [h.tallies.frame.leaves] at hleaf
  exact (hs.built id i ⟨path, hleaf⟩).not_ge h.new

theorem pluginsOf_eq (h : s.Introduces i read s₁) :
    s₁.pluginsOf (s₁.module i).scope = s.registry.plugins := by
  rw [pluginsOf, h.owner]
  exact congrArg Registry.plugins h.tallies.frame.registry

/-- Plugins have worked on the module, to the end or not. -/
theorem links (h : s.Introduces i read s₁) (hs : s.Regular) (hgrows : s₁.Grows s₂)
    (ha : Alters i calls s₂ s₃) (hscope : (s₃.module i).scope = (s₂.module i).scope)
    (happlies : calls.Applies (s₁.pluginsOf (s₁.module i).scope) (s₂.module i).path) :
    s.Links s₃ [] := by
  have hm := h.module_eq hs hgrows
  rw [h.pluginsOf_eq, hm, h.path] at happlies
  obtain ⟨done, h₂⟩ := hgrows
  have hspares : Spares (fun _ => True) (fun j => j ≠ i) s₂ s₃ := ha.spares (by simp)
  have htallies := h.tallies.trans (fun _ h => h.elim) h₂
  have hin : s₃.InScope (s₃.module i).scope := by
    rw [hscope]
    exact hspares.inScope (h₂.regular.scopes i (h.lt_size.trans_le h₂.frame.modules_size))
  have hsettles := htallies.toSettles.alters ha (Or.inr h.new) hin fun e _ _ howner => by
    rw [hm, h.owner] at howner
    cases howner
  refine ⟨_, _, htallies.step hsettles ?_ ha.calls_eq, ?_⟩
  · funext id
    rw [IsCompiled, IsCompiled, hspares.libraries id trivial]
  · rw [List.append_nil]
    exact .append h.reads happlies

end Store.Introduces

/-- The module of a shader is made. -/
theorem ends_makeModule_introduces (hs : s.Regular) (code : Text) :
    let scope : Scope := { serial := s.nextSerial, owner := .registry }
    Ends (fun i s' => ∃ read, s.Introduces i read s') (fun s' => s.Links s' [])
      (makeModule Registry.shaderPath code scope true
        { s with nextSerial := s.nextSerial + 1 }) := by
  intro scope
  let s₁ : Store := { s with nextSerial := s.nextSerial + 1 }
  have hfresh : Called [] s s₁ := ⟨quiet_fresh s, (List.append_nil _).symm⟩
  have hs₁ : Tallies (fun _ => False) s s₁ [] [] [] := (Tallies.refl hs).called hfresh
  have hscope : s₁.InScope scope := by
    refine ⟨Nat.lt_succ_self _, fun p hp => ?_⟩
    cases hp
  refine (ends_makeModule_calls _ code scope true).mono (fun i s₂ => ?_) fun s₂ => ?_
  · rintro ⟨rfl, read, s₃, m, h₃, rfl, hpath, -, hm, hread⟩
    have hs₃ : Tallies (fun _ => False) s s₃ [] [] read := hs₁.called h₃
    have hsize : s₃.modules.size = s.modules.size := by rw [h₃.modules]
    have hspares : Spares (fun _ => True) (fun _ => True) s₁ s₃ := h₃.spares
    have hmodule : Store.module { s₃ with modules := s₃.modules.push m } s.modules.size = m := by
      rw [module_push, if_pos hsize.symm]
    refine ⟨read, .of_same (Spares.trans hs₃.frame (spares_push m))
      (hs₃.regular.push (hspares.inScope (hm ▸ hscope))) (fun id _ hid => ?_) h₃.calls_eq, le_rfl,
      ?_, ?_, ?_, hread.reads⟩
    · have hlibraries : s₃.libraries = s.libraries := h₃.libraries
      rwa [IsCompiled, library, hlibraries] at hid
    · show s.modules.size < (s₃.modules.push m).size
      rw [Array.size_push, hsize]
      exact Nat.lt_succ_self _
    · rw [hmodule, hpath]
    · rw [hmodule, hm]
  · rintro ⟨⟨calls, h₂, hreads⟩, -⟩
    exact ⟨[], calls, hs₁.called h₂, hreads.partly _⟩

theorem ends_makeShader_links (hs : s.Regular) (code : Text) :
    Ends (fun i s' => s.Links s' [] ∧ i < s'.modules.size) (fun s' => ∃ broken, s.Links s' broken)
      (Registry.makeShader code s) := by
  unfold Registry.makeShader
  apply ends_bind.2
  apply ends_bind.2
  apply ends_get.2
  apply ends_bind.2
  apply ends_set.2
  apply ends_pure.2
  refine ((ends_makeModule_introduces hs code).mono (fun i s₁ => ?_) fun s₁ h => ⟨[], h⟩) |>
    ends_bind.2
  rintro ⟨read, h₁⟩
  show Ends _ _ ((do applyPlugins i; return i : LinkM ModuleId) s₁)
  have hregular := h₁.tallies.regular
  have hreach := ends_reachWith_grows atomic_compile hregular
    (hregular.librariesOf (hregular.scopes i h₁.lt_size)) (s₁.module i).declarations
  refine (ends_applyTo hreach fun _ s₂ h₂ => h₁.lt_size.trans_le h₂.rests.frame.modules_size).mono
    (fun _ s₂ => ?_) (fun s₂ => ?_) |> ends_bind.2
  · rintro ⟨found, s₃, calls, h₃, ha, happlied⟩
    refine ⟨h₁.links hs h₃ ha happlied.kept.2.2 happlied.applies, ?_⟩
    rw [ha.modules_size]
    exact h₁.lt_size.trans_le h₃.rests.frame.modules_size
  · rintro (h₂ | ⟨found, s₃, h₃, calls, happlies, ha, hscope⟩)
    · exact Links.trans_rests ⟨[], read, h₁.tallies, h₁.reads.partly _⟩ h₂
    · exact ⟨[], h₁.links hs h₃ ha hscope happlies⟩

theorem ends_linkModule_grows (hs : s.Regular) {i : ModuleId} (hi : i < s.modules.size) :
    Ends (fun _ => s.Grows) s.Rests (linkModule i s) := by
  have hgather : Ends (fun _ => s.Grows) s.Rests (gather i s) := by
    unfold gather
    apply ends_bind.2
    apply ends_get.2
    refine (ends_reachWith_grows atomic_compile hs (hs.librariesOf (hs.scopes i hi)) _).bind
      fun found s₁ h₁ => ?_
    apply ends_bind.2
    apply ends_get.2
    exact h₁
  exact ends_linkModule_of_gather (hgather.imp fun ds s₁ h₁ s₂ hcalled =>
    ⟨fun _ _ => h₁.called hcalled, fun _ _ => h₁.rests.called hcalled⟩)

theorem ends_link_links (hs : s.Regular) (code : Text) :
    Ends (fun _ s' => s.Links s' []) (fun s' => ∃ broken, s.Links s' broken)
      (Registry.link code s) := by
  unfold Registry.link
  refine (ends_makeShader_links hs code).bind fun i s₁ h₁ => ?_
  exact (ends_linkModule_grows h₁.1.regular h₁.2).mono (fun _ _ h => h₁.1.trans_grows h)
    fun _ h => h₁.1.trans_rests h

end Requests

/-! ## Between compilations -/

section Settings

variable {s : Store}

/-- Where modules are as they were, and libraries but for their plugins and dependencies, nothing is
changed of what is compiled. -/
theorem Store.Regular.adjusts {s' : Store} (hs : s.Regular)
    (hsize : s'.libraries.size = s.libraries.size) (hmodules : s'.modules = s.modules)
    (hserial : s'.nextSerial = s.nextSerial) (hcalls : s'.calls = s.calls)
    (hc : s'.IsCompiled = s.IsCompiled)
    (hm : ∀ id, (s'.library id).modules = (s.library id).modules)
    (hleaves : ∀ id, (s'.library id).leaves = (s.library id).leaves)
    (hdependencies : ∀ id, s.InRange (s'.library id).dependencies)
    (hregistered : s.InRange s'.registry.libraries) : s.Adjusts s' := by
  have hmodule : s'.module = s.module := by
    funext i
    rw [module, hmodules, module]
  have hleaf : s'.IsLeaf = s.IsLeaf := by
    funext id i
    rw [IsLeaf, IsLeaf, hleaves]
  have hunshared : s'.Unshared = s.Unshared := by
    funext id i
    rw [Unshared, Unshared, hleaf]
  have hrange : s'.InRange = s.InRange := by
    funext t
    rw [InRange, InRange, hsize]
  have hregular : s'.Regular := by
    refine ⟨fun id hid => ?_, fun i hi => ?_, fun id i hi => ?_, fun id => ?_, fun id => ?_, ?_⟩
    · rw [hm]
      exact hs.idle id (hc ▸ hid)
    · rw [InScope, hserial, hmodule, hrange]
      exact hs.scopes i (hmodules ▸ hi)
    · rw [hmodules]
      exact hs.built id i (hleaf ▸ hi)
    · rw [hleaves]
      exact hs.distinct id
    · rw [hrange]
      exact hdependencies id
    · rw [hrange]
      exact hregistered
  have hfills : ∀ leaf i, s.Fills leaf i → s'.Fills leaf i := by
    rintro leaf i ⟨hlt, hpath, hsource⟩
    exact ⟨hmodules ▸ hlt, hmodule ▸ hpath, hmodule ▸ hsource⟩
  refine ⟨⟨hregular, hsize, fun id hid => ?_, fun id _ => hm id, fun id plugins work h => ?_⟩, hc,
    hleaves, hcalls⟩
  · rwa [hc]
  · refine ⟨hc ▸ h.compiled, ?_, ?_, ?_, fun w hw hw' => ?_⟩
    · rw [hm, hleaves]
      exact h.modules
    · rw [hleaves]
      exact h.fills.imp fun leaf w hw => hfills leaf w.1 hw
    · rw [hleaves]
      exact h.tries.imp fun _ _ htries =>
        ⟨htries.preprocessed, htries.path, fun hw => htries.transformed (hunshared ▸ hw)⟩
    · rw [hmodule]
      exact h.worked w hw (hunshared ▸ hw')

/-- A library gets a plugin or a dependency. -/
theorem Store.Regular.adjusts_changeLibrary (hs : s.Regular) {id : LibraryId}
    {f : Library → Library} (hname : ∀ l, (f l).name = l.name)
    (hdefinition : ∀ l, (f l).definition = l.definition)
    (hcompiled : ∀ l, (f l).isCompiled = l.isCompiled) (hmodules : ∀ l, (f l).modules = l.modules)
    (hdependencies : s.InRange (f (s.library id)).dependencies) :
    s.Adjusts { s with libraries := s.libraries.modify id f } := by
  let s' : Store := { s with libraries := s.libraries.modify id f }
  have hlibrary : ∀ j, s'.library j = f (s.library j) ∧ j = id ∨ s'.library j = s.library j := by
    intro j
    rw [library_modify]
    split
    · rename_i h
      exact Or.inl ⟨rfl, h.1⟩
    · exact Or.inr rfl
  refine hs.adjusts (by simp) rfl rfl rfl (funext fun j => ?_) (fun j => ?_) (fun j => ?_)
    (fun j => ?_) hs.registered
  · rcases hlibrary j with ⟨h, -⟩ | h <;> rw [IsCompiled, IsCompiled, h]
    rw [hcompiled]
  · rcases hlibrary j with ⟨h, -⟩ | h <;> rw [h]
    rw [hmodules]
  · rcases hlibrary j with ⟨h, -⟩ | h <;> rw [h]
    rw [Library.leaves, Library.leaves, hname, hdefinition]
  · rcases hlibrary j with ⟨h, rfl⟩ | h <;> rw [h]
    · exact hdependencies
    · exact hs.dependencies j

namespace Request

variable {r : Request} {done : Ledger} {broken : Tried} {own : Calls}

/-- The calls that a request may make that are not for libraries: those for the shader that it
links. -/
def MayCall (s : Store) (own : Calls) : Request → Prop
  | link _ => own.Partly s.registry.plugins Registry.shaderPath
  | compile _ | lookup .. | addPlugin .. | addShaderPlugin _ | addDependency .. => own = []

/-- What a request did, whether it failed or not: it compiled just the libraries in the ledger, and
the plugins that they had worked on their modules; it could not compile those in `broken`, of which
there are none if it did not fail.  No plugin was called but for these libraries, and in the calls
`own`. -/
structure Tallies (r : Request) (s : Store) (done : Ledger) (broken : Tried) (own : Calls) :
    Prop where
  distinct : (done.map Prod.fst).Nodup
  mem_iff : ∀ id, id ∈ done.map Prod.fst ↔ ¬ s.IsCompiled id ∧ (r.run s).2.IsCompiled id
  complete : ∀ e ∈ done, (r.run s).2.Complete e.1 (s.library e.1).plugins e.2
  apart : (broken.map Prod.fst).Nodup
  interrupted : ∀ e ∈ broken, ¬ (r.run s).2.IsCompiled e.1 ∧ s.Attempts e.1 e.2
  succeeded : (r.run s).1.isOk → broken = []
  mayCall : r.MayCall s own
  calls : ∃ new, (r.run s).2.calls = s.calls ++ new ∧
    new.Perm (Ledger.calls done ++ Tried.calls broken ++ own)

/-- The request compiled the library to the end, with these calls for its modules. -/
def Completes (r : Request) (s : Store) (id : LibraryId) (work : Work) : Prop :=
  ∃ done broken own, r.Tallies s done broken own ∧ (id, work) ∈ done

theorem Completes.complete {id : LibraryId} {work : Work} (h : r.Completes s id work) :
    (r.run s).2.Complete id (s.library id).plugins work := by
  obtain ⟨done, broken, own, htallies, hmem⟩ := h
  exact htallies.complete _ hmem

theorem Tallies.of_store (h : Store.Tallies (fun _ => False) s (r.run s).2 done broken own)
    (hbroken : (r.run s).1.isOk → broken = []) (hown : r.MayCall s own) :
    r.Tallies s done broken own where
  distinct := h.distinct
  mem_iff id := by simp [h.mem_iff]
  complete e he := by
    rw [← h.frame.plugins]
    exact h.complete e he
  apart := h.apart
  interrupted := h.interrupted
  succeeded := hbroken
  mayCall := hown
  calls := h.calls

theorem Tallies.of_adjusts (h : s.Adjusts (r.run s).2) (hown : r.MayCall s []) :
    r.Tallies s [] [] [] where
  distinct := List.nodup_nil
  mem_iff id := by simp [h.isCompiled_eq]
  complete e he := absurd he List.not_mem_nil
  apart := List.nodup_nil
  interrupted e he := absurd he List.not_mem_nil
  succeeded _ := rfl
  mayCall := hown
  calls := ⟨[], h.calls_eq.trans (List.append_nil _).symm, .refl _⟩

/-- A request that changes no plugins or dependencies compiles some libraries, to the end or not. -/
theorem exists_store_tallies
    (h : Ends (fun _ s' => ∃ done own,
        Store.Tallies (fun _ => False) s s' done [] own ∧ r.MayCall s own)
      (fun s' => ∃ done broken own,
        Store.Tallies (fun _ => False) s s' done broken own ∧ r.MayCall s own) (r.run s)) :
    ∃ done broken own, Store.Tallies (fun _ => False) s (r.run s).2 done broken own ∧
      ((r.run s).1.isOk → broken = []) ∧ r.MayCall s own := by
  rcases hrun : r.run s with ⟨_ | _, s'⟩
  · obtain ⟨done, broken, own, htallies, hown⟩ := h.of_eq_error hrun
    exact ⟨done, broken, own, htallies, nofun, hown⟩
  · obtain ⟨done, own, htallies, hown⟩ := h.of_eq_ok hrun
    exact ⟨done, [], own, htallies, fun _ => rfl, hown⟩

/-- What a request does, also if it fails: something is compiled, or a library or the registry gets
a plugin or a dependency. -/
theorem tallies_or_adjusts (hs : s.Regular) (hr : r.InRange s.libraries.size) :
    (∃ done broken own, Store.Tallies (fun _ => False) s (r.run s).2 done broken own ∧
      ((r.run s).1.isOk → broken = []) ∧ r.MayCall s own) ∨
    s.Adjusts (r.run s).2 ∧ r.MayCall s [] := by
  cases r with
  | compile id =>
    refine Or.inl (exists_store_tallies ((ends_compile_grows hs hr).mono ?_ ?_))
    · rintro _ s' ⟨done, h⟩
      exact ⟨done, [], h, rfl⟩
    · rintro s' ⟨done, broken, h⟩
      exact ⟨done, broken, [], h, rfl⟩
  | lookup id path name origin user =>
    refine Or.inl (exists_store_tallies (ends_bind.2
      ((ends_lookup_grows hs hr path name origin user).mono ?_ ?_)))
    · rintro _ s' ⟨done, h⟩
      exact ⟨done, [], h, rfl⟩
    · rintro s' ⟨done, broken, h⟩
      exact ⟨done, broken, [], h, rfl⟩
  | link code =>
    refine Or.inl (exists_store_tallies (ends_bind.2 ((ends_link_links hs code).mono ?_ ?_)))
    · rintro _ s' h
      exact h
    · rintro s' ⟨broken, done, own, h⟩
      exact ⟨done, broken, own, h⟩
  | addPlugin id p =>
    refine Or.inr ⟨?_, rfl⟩
    exact hs.adjusts_changeLibrary (fun _ => rfl) (fun _ => rfl) (fun _ => rfl) (fun _ => rfl)
      (hs.dependencies id)
  | addShaderPlugin p =>
    refine Or.inr ⟨?_, rfl⟩
    exact hs.adjusts rfl rfl rfl rfl rfl (fun _ => rfl) (fun _ => rfl) hs.dependencies hs.registered
  | addDependency id dependency =>
    refine Or.inr ⟨?_, rfl⟩
    refine hs.adjusts_changeLibrary (fun _ => rfl) (fun _ => rfl) (fun _ => rfl) (fun _ => rfl)
      fun p hp => ?_
    rcases Table.mem_of_mem_insert hp with rfl | hp
    · exact hr.2
    · exact hs.dependencies id p hp

theorem serves (hs : s.Regular) (hr : r.InRange s.libraries.size) : s.Serves (r.run s).2 := by
  rcases tallies_or_adjusts hs hr with ⟨_, _, _, h, -⟩ | ⟨h, -⟩
  · exact h.serves
  · exact h.toServes

theorem exists_tallies (hs : s.Regular) (hr : r.InRange s.libraries.size) :
    ∃ done broken own, r.Tallies s done broken own := by
  rcases tallies_or_adjusts hs hr with ⟨_, _, _, h, hbroken, hown⟩ | ⟨h, hown⟩
  · exact ⟨_, _, _, .of_store h hbroken hown⟩
  · exact ⟨_, _, _, .of_adjusts h hown⟩

/-- What is compiled after a request and was not before was compiled by it. -/
theorem exists_completes (hs : s.Regular) (hr : r.InRange s.libraries.size) {id : LibraryId}
    (hid : ¬ s.IsCompiled id) (hid' : (r.run s).2.IsCompiled id) :
    ∃ work, r.Completes s id work := by
  obtain ⟨done, broken, own, h⟩ := exists_tallies hs hr
  obtain ⟨e, he, rfl⟩ := List.mem_map.1 ((h.mem_iff id).2 ⟨hid, hid'⟩)
  exact ⟨e.2, done, broken, own, h, he⟩

/-- No request changes what a library is made of. -/
theorem leaves_run (hs : s.Regular) (hr : r.InRange s.libraries.size) (id : LibraryId) :
    ((r.run s).2.library id).leaves = (s.library id).leaves := by
  rcases tallies_or_adjusts hs hr with ⟨_, _, _, h, -⟩ | ⟨h, -⟩
  · exact h.frame.leaves id
  · exact h.leaves_eq id

end Request

end Settings

/-! ## Many requests -/

namespace Store

/-- The store after some requests. -/
def after (s : Store) (rs : List Request) : Store := rs.foldl (fun s r => (r.run s).2) s

/-- Libraries that were just made: none is compiled. -/
structure Prepared (s : Store) : Prop extends Regular s where
  uncompiled : ∀ id, ¬ s.IsCompiled id

/-- The library is as it was made, or one of the requests has compiled it to the end with the
plugins that it had then, and it is complete since then. -/
def Settled (s : Store) (rs : List Request) (id : LibraryId) : Prop :=
  (s.after rs).Idle id ∨ ∃ rs₁ r rs₂ work, rs = rs₁ ++ r :: rs₂ ∧
    r.Completes (s.after rs₁) id work ∧
      (s.after rs).Complete id ((s.after rs₁).library id).plugins work

variable {s : Store} {rs : List Request} {r : Request} {id : LibraryId}

theorem after_concat (s : Store) (rs : List Request) (r : Request) :
    s.after (rs ++ [r]) = (r.run (s.after rs)).2 := by
  rw [after, after, List.foldl_append]
  rfl

theorem after_compile (s : Store) (id : LibraryId) :
    s.after [.compile id] = (ShaderLink.compile id s).2 := rfl

theorem after_append (s : Store) (rs rs' : List Request) :
    s.after (rs ++ rs') = (s.after rs).after rs' := by
  rw [after, after, after, List.foldl_append]

/-- What all requests preserve. -/
theorem Regular.after (hs : s.Regular) (hrs : ∀ r ∈ rs, r.InRange s.libraries.size) :
    (s.after rs).Regular ∧ (s.after rs).libraries.size = s.libraries.size := by
  induction rs using List.reverseRecOn with
  | nil => exact ⟨hs, rfl⟩
  | append_singleton rs r ih =>
    obtain ⟨hregular, hsize⟩ := ih fun r' hr' => hrs r' (List.mem_append_left _ hr')
    have hr := hrs r (List.mem_append_right _ List.mem_cons_self)
    rw [after_concat]
    have hserves := Request.serves hregular (hsize.symm ▸ hr)
    exact ⟨hserves.regular, hserves.size.trans hsize⟩

theorem Settled.concat (hs : s.Regular) (hrs : ∀ r ∈ rs, r.InRange s.libraries.size)
    (hr : r.InRange s.libraries.size) (h : s.Settled rs id) : s.Settled (rs ++ [r]) id := by
  obtain ⟨hregular, hsize⟩ := hs.after hrs
  have hserves := Request.serves hregular (hsize.symm ▸ hr)
  rcases h with ⟨hid, -⟩ | ⟨rs₁, r', rs₂, work, rfl, hcompletes, hcomplete⟩
  · by_cases hid' : (r.run (s.after rs)).2.IsCompiled id
    · obtain ⟨work, hcompletes⟩ := Request.exists_completes hregular (hsize.symm ▸ hr) hid hid'
      refine Or.inr ⟨rs, r, [], work, rfl, hcompletes, ?_⟩
      rw [after_concat]
      exact hcompletes.complete
    · rw [Settled, after_concat]
      exact Or.inl ⟨hid', hserves.regular.idle id hid'⟩
  · refine Or.inr ⟨rs₁, r', rs₂ ++ [r], work, by simp, hcompletes, ?_⟩
    rw [after_concat]
    exact hserves.complete id _ work hcomplete

theorem Idle.settled (hid : s.Idle id) (hs : s.Regular)
    (hrs : ∀ r ∈ rs, r.InRange s.libraries.size) : s.Settled rs id := by
  induction rs using List.reverseRecOn with
  | nil => exact Or.inl hid
  | append_singleton rs r ih =>
    have hrs' := fun r' hr' => hrs r' (List.mem_append_left [r] hr')
    exact (ih hrs').concat hs hrs' (hrs r (List.mem_append_right _ List.mem_cons_self))

theorem settled_after (hs : s.Prepared) (hrs : ∀ r ∈ rs, r.InRange s.libraries.size)
    (id : LibraryId) : s.Settled rs id :=
  Idle.settled ⟨hs.uncompiled id, hs.idle id (hs.uncompiled id)⟩ hs.toRegular hrs

theorem leaves_after (hs : s.Regular) (hrs : ∀ r ∈ rs, r.InRange s.libraries.size)
    (id : LibraryId) : ((s.after rs).library id).leaves = (s.library id).leaves := by
  induction rs using List.reverseRecOn with
  | nil => rfl
  | append_singleton rs r ih =>
    have hrs' := fun r' hr' => hrs r' (List.mem_append_left [r] hr')
    obtain ⟨hregular, hsize⟩ := hs.after hrs'
    have hr := hrs r (List.mem_append_right _ List.mem_cons_self)
    rw [after_concat, Request.leaves_run hregular (hsize.symm ▸ hr), ih hrs']

/-- What is compiled keeps its modules, whatever is asked for. -/
theorem modules_after (hs : s.Regular) (hrs : ∀ r ∈ rs, r.InRange s.libraries.size)
    (hid : s.IsCompiled id) :
    (s.after rs).IsCompiled id ∧ ((s.after rs).library id).modules = (s.library id).modules := by
  induction rs using List.reverseRecOn with
  | nil => exact ⟨hid, rfl⟩
  | append_singleton rs r ih =>
    have hrs' := fun r' hr' => hrs r' (List.mem_append_left [r] hr')
    obtain ⟨hid', hmodules⟩ := ih hrs'
    obtain ⟨hregular, hsize⟩ := hs.after hrs'
    have hserves := Request.serves hregular
      (hsize.symm ▸ hrs r (List.mem_append_right _ List.mem_cons_self))
    rw [after_concat]
    exact ⟨hserves.compiled id hid', (hserves.modules id hid').trans hmodules⟩

end Store

/-! ## Libraries are compiled once and completely -/

section Atomic

variable {s : Store} {rs : List Request}

/-- A library that could not be compiled was not compiled before. -/
theorem not_isCompiled_of_compile (hs : s.Regular) {id : LibraryId} (hid : id < s.libraries.size) :
    Ends (fun _ _ => True) (fun s' => ¬ s'.IsCompiled id) (compile id s) := by
  by_cases hc : (s.library id).isCompiled = true
  · unfold ShaderLink.compile
    apply ends_bind.2
    apply ends_get.2
    unfold compileAt
    apply ends_bind.2
    apply ends_get.2
    rw [if_pos hc]
    trivial
  · exact (atomic_compile id s hs hid).mono (fun _ _ _ => trivial) fun _ h => h.2 hc

/-- Whatever was asked for, and whether it failed or not: each library is as it was made, or some
request has compiled it to the end, and then it has a module for each leaf, on each of which the
plugins of that time have worked once if no other library has it as a leaf.  A request calls no
plugin but for the modules of the libraries that it compiles to the end, for those that it could not
compile, and for the shader that it links.  What it could not compile to the end is as it was made.
A library that is compiled keeps its modules. -/
theorem requests_atomic (hs : s.Prepared) (hrs : ∀ r ∈ rs, r.InRange s.libraries.size) :
    (∀ id, s.Settled rs id) ∧
    (∀ r : Request, r.InRange s.libraries.size →
      ∃ done broken own, r.Tallies (s.after rs) done broken own) ∧
    (∀ (r : Request) fault s', r.InRange s.libraries.size →
      r.run (s.after rs) = (.error fault, s') →
        (∀ id, ¬ (s.after rs).IsCompiled id → (∀ work, ¬ r.Completes (s.after rs) id work) →
          s'.Idle id) ∧
        ∀ id, r = .compile id → s'.Idle id) ∧
    ∀ id, (s.after rs).IsCompiled id →
      ∀ rs' : List Request, (∀ r ∈ rs', r.InRange s.libraries.size) →
        (s.after (rs ++ rs')).IsCompiled id ∧
          ((s.after (rs ++ rs')).library id).modules = ((s.after rs).library id).modules := by
  obtain ⟨hregular, hsize⟩ := hs.toRegular.after hrs
  refine ⟨settled_after hs hrs, fun r hr => Request.exists_tallies hregular (hsize.symm ▸ hr),
    fun r fault s' hr hrun => ?_, fun id hid rs' hrs' => ?_⟩
  · have hserves := Request.serves hregular (hsize.symm ▸ hr)
    have hcompletes := @Request.exists_completes _ _ hregular (hsize.symm ▸ hr)
    rw [hrun] at hserves hcompletes
    refine ⟨fun id hid hnot => ?_, fun id hid => ?_⟩
    · have hid' : ¬ s'.IsCompiled id := fun hid' => (hcompletes hid hid').elim hnot
      exact ⟨hid', hserves.regular.idle id hid'⟩
    · subst hid
      have hends := not_isCompiled_of_compile hregular (hsize.symm ▸ hr)
      rw [show compile id (s.after rs) = (.error fault, s') from hrun] at hends
      exact ⟨hends, hserves.regular.idle id hends⟩
  · rw [after_append]
    exact modules_after hregular (hsize.symm ▸ hrs') hid

end Atomic

/-! ### Two libraries with plugins -/

/-- A leaf that exists already has a number below the bound. -/
def Source.isBelow (n : Nat) : Source → Bool
  | .built i => i < n
  | _ => true

/-- What has to be checked of the libraries and modules that exist. -/
theorem Store.prepared_of_checks {s : Store}
    (hlibraries : ∀ id < s.libraries.size, (s.library id).isCompiled = false ∧
      (s.library id).modules = [] ∧ ((s.library id).leaves.map Prod.fst).Nodup ∧
        (∀ leaf ∈ (s.library id).leaves, leaf.2.isBelow s.modules.size = true) ∧
          ∀ p ∈ (s.library id).dependencies, p.2 < s.libraries.size)
    (hmodules : ∀ i < s.modules.size, (s.module i).scope.serial < s.nextSerial ∧
      ∀ p ∈ (s.module i).scope.owner.table, p.2 < s.libraries.size)
    (hregistry : ∀ p ∈ s.registry.libraries, p.2 < s.libraries.size) : s.Prepared := by
  have hempty : ∀ id, ¬ id < s.libraries.size →
      s.library id = { name := [], definition := .tree .nil } :=
    fun id hid => library_of_size_le s (not_lt.1 hid)
  have huncompiled : ∀ id, ¬ s.IsCompiled id := by
    intro id
    by_cases hid : id < s.libraries.size
    · simp [IsCompiled, (hlibraries id hid).1]
    · simp [IsCompiled, hempty id hid]
  refine ⟨⟨fun id _ => ?_, hmodules, fun id i hi => ?_, fun id => ?_, fun id => ?_, hregistry⟩,
    huncompiled⟩
  all_goals by_cases hid : id < s.libraries.size
  · exact (hlibraries id hid).2.1
  · rw [hempty id hid]
  · obtain ⟨path, hleaf⟩ := hi
    exact of_decide_eq_true ((hlibraries id hid).2.2.2.1 _ hleaf)
  · obtain ⟨path, hleaf⟩ := hi
    rw [hempty id hid] at hleaf
    cases hleaf
  · exact (hlibraries id hid).2.2.1
  · rw [hempty id hid]
    exact List.nodup_nil
  · exact (hlibraries id hid).2.2.2.2
  · rw [hempty id hid]
    intro p hp
    cases hp

/-- A plugin that changes nothing; it is known by its calls. -/
def recorder (serial : Nat) : Plugin := { id := "record".toList, serial }

def givingSource : Text := "export \x7b x \x7d;\nconst float x = 1.0;\n".toList

def usingSource : Text := "import \x7b x \x7d from \"a/m\";\nfloat n() \x7b return x; \x7d\n".toList

/-- Two libraries that can import from each other, with a plugin each. -/
def recordedStore : Store :=
  let first : Tree Source := .leaf "m".toList (.code givingSource) .nil
  let s₁ := (addLibrary "a".toList (.tree first) [recorder 1] [] {}).2
  (addDependency 0 1
    (addLibrary "b".toList (.single (.code usingSource)) [recorder 2] [0] s₁).2).2

/-- A lookup that fails, a new plugin, and one more compilation. -/
def recordedRequests : List Request :=
  [.lookup 1 "b".toList "gone".toList .imported "a/m/x".toList, .addPlugin 1 (recorder 3),
    .compile 0]

/-- The failing lookup has compiled both libraries, and calls each plugin once; nothing is called
after that. -/
theorem requests_atomic_recorded : recordedStore.Prepared ∧
    (∀ r ∈ recordedRequests, r.InRange recordedStore.libraries.size) ∧
      (recordedStore.after recordedRequests).IsCompiled 1 ∧
        (∀ id, recordedStore.Settled recordedRequests id) ∧
          (∃ done broken own,
            (Request.compile 1).Tallies (recordedStore.after recordedRequests) done broken own) ∧
          Calls.preprocessed (recordedStore.after recordedRequests).calls = [2, 1] ∧
            Calls.transformed (recordedStore.after recordedRequests).calls =
              [(1, "a/m".toList), (2, "b".toList)] := by
  have hs : recordedStore.Prepared := prepared_of_checks (by decide) (by decide) (by decide)
  have hrs : ∀ r ∈ recordedRequests, r.InRange recordedStore.libraries.size := by decide
  obtain ⟨hsettled, htallies, -⟩ := requests_atomic hs hrs
  exact ⟨hs, hrs, by unfold IsCompiled; decide +kernel, hsettled, htallies (.compile 1) (by decide),
    by decide +kernel, by decide +kernel⟩

/-! ### A module in two libraries -/

/-- A plugin that leaves a mark on each declaration. -/
def marker (mark : Char) : Plugin where
  id := "marker".toList
  transform _ _ ds := { edited := ds.map fun d => { d with definition := d.definition ++ [mark] } }

/-- Two libraries of one name with plugins of their own; the first imports from the second. -/
def sharedLibraries : Store :=
  let first : Tree Source := .leaf "k".toList (.code usingSource) (.leaf "m".toList (.built 0) .nil)
  let second : Tree Source := .leaf "m".toList (.built 0) .nil
  let s₁ := (addLibrary "a".toList (.tree first) [marker '1'] [] {}).2
  (addDependency 0 1 (addLibrary "a".toList (.tree second) [marker '2'] [] s₁).2).2

/-- The libraries with the module that is a leaf of both. -/
def sharedStore : Store := (makeModule "a/m".toList givingSource {} false sharedLibraries).2

theorem libraries_makeModule (s : Store) (path source : Text) (scope : Scope) (isShader : Bool) :
    (makeModule path source scope isShader s).2.libraries = s.libraries := by
  refine ((ends_makeModule_calls path source scope isShader).mono (fun i s' => ?_)
    fun s' => ?_).snd (I := fun s' => s'.libraries = s.libraries)
  · rintro ⟨-, calls, s₁, m, h, rfl, -⟩
    exact h.libraries
  · rintro ⟨⟨calls, h, -⟩, -⟩
    exact h.libraries

theorem libraries_sharedStore : sharedStore.libraries = sharedLibraries.libraries := by
  rw [sharedStore, libraries_makeModule]

/-- A plugin that leaves definitions as they are brings in no other declarations. -/
theorem Plugin.Rewrites.subset {p : Plugin} {isShader : Bool} {n : Nat} {seen seen' : Surroundings}
    {ds ds' : List Declaration} {calls : Calls}
    (hp : ∀ isShader seen d definition, p.postprocess isShader seen d definition = .ok definition)
    (h : p.Rewrites isShader n seen ds calls seen' ds') : ds' ⊆ ds := by
  induction h with
  | done => exact List.Subset.refl _
  | @step n seen seen' ds ds' d definition calls hd h _ ih =>
    obtain rfl := Except.ok.inj ((hp _ _ _ _).symm.trans h)
    refine List.Subset.trans ih fun e he => ?_
    obtain ⟨e₀, he₀, rfl⟩ := List.mem_map.1 he
    rcases e₀.latest_singleton d with heq | heq <;> rw [heq]
    · exact he₀
    · exact List.mem_of_getElem? hd

/-- A mark is left on each declaration of a module on which the plugin has worked once. -/
theorem getLast?_of_workedOn_marker {mark : Char} {m : Module} {calls : Calls}
    (h : m.WorkedOn [marker mark] calls) {d : Declaration} (hd : d ∈ m.declarations) :
    d.definition.getLast? = some mark := by
  obtain ⟨m₀, found, read, applied, -, happlied, -⟩ := h
  obtain ⟨seen, ds, seen', ds', transforms, postprocesses, ht, hp, -, rfl⟩ := happlied
  have hds : ds = m₀.declarations.map fun d => { d with definition := d.definition ++ [mark] } := by
    cases ht with
    | kept h hps =>
      cases hps
      exact (congrArg Transformed.edited h).symm
    | replaced h => cases h
  have hsubset : ds' ⊆ ds := by
    cases hp with
    | cons h hps =>
      cases hps
      exact h.subset fun _ _ _ _ => rfl
  obtain ⟨e, -, rfl⟩ := List.mem_map.1 (hds ▸ hsubset hd)
  exact List.getLast?_concat

/-- In a library that shares a module, its plugins need not work on the module: that is bound again
when the other library is compiled, and then the plugin of that one works on it twice. -/
theorem not_workedOn_shared : sharedStore.Prepared ∧
    (sharedStore.after [.compile 0]).IsCompiled 0 ∧
    ((sharedStore.after [.compile 0]).library 0).modules.get? "a/m".toList = some 0 ∧
    ((sharedStore.after [.compile 0]).library 0).plugins = [marker '1'] ∧
    ((sharedStore.after [.compile 0]).module 0).declarations.map (·.definition) =
      ["const float x = 1.0;22".toList] ∧
    ∀ calls, ¬ ((sharedStore.after [.compile 0]).module 0).WorkedOn [marker '1'] calls := by
  have hs : sharedStore.Prepared :=
    prepared_of_checks (by decide +kernel) (by decide +kernel) (by decide +kernel)
  have hplugins : ((sharedStore.after [.compile 0]).library 0).plugins = [marker '1'] := by
    have hsize : 0 < sharedStore.libraries.size := by rw [libraries_sharedStore]; decide
    rw [after_compile, plugins_compile hs.toRegular hsize, Store.library, libraries_sharedStore]
    rfl
  obtain ⟨hcompiled, hmodule, hdefinitions⟩ :
      ((sharedStore.after [.compile 0]).library 0).isCompiled = true ∧
      ((sharedStore.after [.compile 0]).library 0).modules.get? "a/m".toList = some 0 ∧
      ((sharedStore.after [.compile 0]).module 0).declarations.map (·.definition) =
        ["const float x = 1.0;22".toList] := by decide +kernel
  refine ⟨hs, hcompiled, hmodule, hplugins, hdefinitions, fun calls hworked => ?_⟩
  obtain ⟨d, hd, hdefinition⟩ := List.mem_map.1 (hdefinitions ▸ List.mem_singleton_self
    "const float x = 1.0;22".toList)
  have hlast := getLast?_of_workedOn_marker hworked hd
  rw [hdefinition] at hlast
  exact absurd hlast (by decide)

end ShaderLink
