import ShaderLink.Proofs.Histories
import ShaderLink.Proofs.Touching

/-!
# Which libraries a shader requires

A shader requires the libraries from which it imports what it uses, and each of these the libraries
to which something in it refers (`Store.Requires`).  No others are touched when it is linked, even
if that fails; and if nothing was compiled before, just these are compiled afterwards.  The names
that the shader declares itself do not count, although they have a path that may be the name of a
library: they are known before anything is looked up.
-/

namespace ShaderLink

open LinkM Store

/-- The libraries from which the shader imports something that it uses are in `W`. -/
def ImportsFrom (code : Text) (libraries : Table Text LibraryId) (W : LibraryId → Prop) : Prop :=
  ∀ r, RefersIn Registry.shaderPath code r → r.origin = .imported →
    ∀ id, LeadsTo libraries r.path id → W id

/-- The libraries that have to be compiled for a shader. -/
inductive Store.Requires (s : Store) (code : Text) : LibraryId → Prop where
  | imported {r : Reference} {id : LibraryId} (hr : RefersIn Registry.shaderPath code r)
      (horigin : r.origin = .imported) (h : LeadsTo s.registry.libraries r.path id) :
      Requires s code id
  | referred {r : Reference} {id id' : LibraryId} (hid : Requires s code id) (hr : s.Refers id r)
      (h : LeadsTo (s.library id).dependencies r.path id') : Requires s code id'

section Requirements

variable {W : LibraryId → Prop} {s : Store} {code : Text} {i : ModuleId}

/-! ## Making a module -/

theorem ends_makeModule_draws (hs : s.Clear) {scope : Scope} (hplain : s.Plain scope)
    (hserial : scope.serial < s.nextSerial) (path source : Text) (isShader : Bool) :
    Ends (fun i s' => Draws W (fun _ => False) s s' ∧ i = s.modules.size ∧ i < s'.modules.size ∧
        (s'.module i).path = path ∧ (s'.module i).source = source ∧ (s'.module i).scope = scope)
      (Confines W (fun _ => False) s) (makeModule path source scope isShader s) := by
  have hsoundly : Ends _ _ (makeModule path source scope isShader s) :=
    ends_makeModule (P := True) (C := s.IsCompiled) hs.toSound hplain
  refine (((ends_makeModule_calls path source scope isShader).and hsoundly).and
    (ends_makeModule_fit hs.fit (hs.pluginsOf hplain) hserial path source isShader)).mono
      (fun i s₁ => ?_) fun s₁ => ?_
  · rintro ⟨⟨⟨hi, calls, s₂, m, h₂, rfl, -⟩, ⟨hsound, hkeeps⟩, hlibraries, hlt, hmodule⟩, hfit, -⟩
    have hspares : Spares (fun _ => True) (fun _ => True) s
        { s₂ with modules := s₂.modules.push m } := h₂.spares.trans (spares_push m)
    refine ⟨⟨⟨.of_same (hspares.mono (by simp) (by simp)) (hs.orderly.of_libraries hspares)
      fun id _ hid => ?_, fun id _ => hspares.libraries id trivial, hsound, hfit⟩, hkeeps trivial,
        fun id _ hid => Or.inl ?_⟩, hi, hlt, hmodule⟩
    all_goals rwa [IsCompiled, hspares.libraries id trivial] at hid
  · rintro ⟨⟨⟨⟨calls, h, -⟩, -⟩, hs₁⟩, hfit⟩
    exact (Confines.refl hs).called h

/-! ## Shaders -/

/-- What a shader refers to leads into `W`, unless it is of the shader itself. -/
theorem Store.IsShader.leadsTo (hi : s.IsShader i code) (hs : s.Clear)
    (hcode : ImportsFrom code s.registry.libraries W) :
    ∀ d ∈ (s.module i).declarations, ∀ x ∈ d.references, ∀ id,
      LeadsTo s.registry.libraries x.path id →
        W id ∨ x.origin = .ambient ∧ x.id ∈ (s.module i).declarations.map (·.id) := by
  intro d hd x hx id hleads
  cases horigin : x.origin with
  | imported =>
    have hread := (hs.fit.read i hi.stays.1).refersIn_iff.2 ⟨d, hd, hx⟩
    rw [hi.path, hi.source] at hread
    exact Or.inl (hcode x hread horigin id hleads)
  | ambient =>
    obtain ⟨c, hc, hpath, hname⟩ := (hs.numbered i).declared d hd x hx horigin
    refine Or.inr ⟨rfl, List.mem_map.2 ⟨c, hc, ?_⟩⟩
    rw [Declaration.id, hpath, hname, Reference.id]

/-- Searching for what a shader needs. -/
theorem Store.IsShader.ends_reach_draws (hi : s.IsShader i code) (hs : s.Clear) (hn : s.WellNamed)
    (hW : s.Encloses W) (hcode : ImportsFrom code s.registry.libraries W) :
    Ends (fun _ s' => Draws W (fun _ => False) s s' ∧
        ImportsFrom code s.registry.libraries s'.IsCompiled)
      (Confines W (fun _ => False) s) (reach (s.module i).declarations s.registry.libraries s) := by
  refine (ends_reachWith_draws (drawing_compile W) hs hn hW (hi.leadsTo hs hcode)).imp
    fun _ s' => ?_
  rintro ⟨h, himports⟩
  refine ⟨h, fun r hr horigin id hleads => ?_⟩
  rw [← hi.path, ← hi.source] at hr
  obtain ⟨d, hd, hrd⟩ := (hs.fit.read i hi.stays.1).refersIn_iff.1 hr
  exact himports d hd r hrd horigin id hleads

theorem Store.IsShader.frame {s' : Store} (hi : s.IsShader i code) (h : Frame s s') :
    s'.IsShader i code := by
  obtain ⟨hstays, hpath, hsource, howner, hread⟩ := hi
  rw [← hstays.module_eq h] at hpath hsource howner hread
  exact ⟨hstays.frame h, hpath, hsource, howner, hread⟩

theorem Store.IsShader.surround (hi : s.IsShader i code) (f : Module → Option Surroundings) :
    (s.surround i f).IsShader i code := by
  obtain ⟨o, hmodule⟩ := s.module_surround i f i
  refine ⟨⟨?_, hi.stays.2⟩, ?_, ?_, ?_, ?_⟩
  · rw [Store.surround, Array.size_modify]
    exact hi.stays.1
  all_goals rw [hmodule]
  · exact hi.path
  · exact hi.source
  · exact hi.owner
  · exact hi.read

/-- Making a shader compiles the libraries from which it imports. -/
theorem ends_makeShader_draws (hs : s.Clear) (hn : s.WellNamed) (hW : s.Encloses W)
    (hcode : ImportsFrom code s.registry.libraries W) :
    Ends (fun i s' => Draws W (fun _ => False) s s' ∧ s'.IsShader i code ∧
        ImportsFrom code s.registry.libraries s'.IsCompiled)
      (Confines W (fun _ => False) s) (Registry.makeShader code s) := by
  unfold Registry.makeShader
  apply ends_bind.2
  apply ends_bind.2
  apply ends_get.2
  apply ends_bind.2
  apply ends_set.2
  apply ends_pure.2
  have hfresh : Called [] s { s with nextSerial := s.nextSerial + 1 } :=
    ⟨quiet_fresh s, (List.append_nil _).symm⟩
  have h₁ : Draws W (fun _ => False) s { s with nextSerial := s.nextSerial + 1 } :=
    (Draws.refl hs).called hfresh
  have hs₁ := h₁.clear hs
  have hplain : Plain { s with nextSerial := s.nextSerial + 1 }
      { serial := s.nextSerial, owner := .registry } := by
    intro libraries plugins howner
    cases howner
  refine ends_bind.2 ((ends_makeModule_draws hs₁ hplain (Nat.lt_succ_self _) _ code true).mono
    (fun i s₂ => ?_) fun s₂ h₂ => h₁.toConfines.trans h₂)
  rintro ⟨h₂, hnew, hlt, hpath, hsource, hscope⟩
  have hs₂ := h₂.clear hs₁
  have h₂ := h₁.trans hs₁ (hn.of_spares h₁.builds.frame) h₂
  have hi : s₂.IsShader i code := by
    refine ⟨⟨hlt, ?_⟩, hpath, hsource, by rw [hscope], [], hs₂.fit.read i hlt⟩
    rintro ⟨id, -, hleaf⟩
    rw [h₂.builds.frame.isLeaf] at hleaf
    exact (hs.built id i hleaf).ne hnew
  have hregistry : s₂.registry = s.registry := h₂.keeps.registry
  have hn₂ := hn.of_spares h₂.builds.frame
  have hreach := hi.ends_reach_draws hs₂ hn₂ (hW.of_spares hs h₂.builds.frame) (hregistry ▸ hcode)
  refine ends_bind.2 ((ends_applyTo_plain (Q := fun s₄ => Draws W (fun _ => False) s s₄ ∧
    s₄.IsShader i code ∧ ImportsFrom code s.registry.libraries s₄.IsCompiled)
      (E := Confines W (fun _ => False) s) (hs₂.pluginsOf (hs₂.plain i)) ?_).mono
        (fun _ _ h => h) fun _ h => h)
  rw [hi.librariesOf]
  refine hreach.mono (fun found s₃ => ?_) fun s₃ h₃ => h₂.toConfines.trans h₃
  rintro ⟨h₃, himports⟩
  have hs₃ := h₃.clear hs₂
  have hi₃ := hi.frame h₃.builds.frame
  have hdraws := h₂.trans hs₂ hn₂ h₃
  have hsize : s.modules.size ≤ i := hnew.ge
  let f : Module → Option Surroundings := fun m =>
    some (.of m.path m.declarations m.imports found)
  have halters : Alters i [] s₃ (s₃.surround i f) :=
    s₃.alters_changeModule (fun _ => rfl) (fun _ => rfl) fun _ => rfl
  refine ⟨hdraws.alike ⟨?_, hdraws.within, hs₃.surround, hs₃.fit.surround⟩
    (hdraws.keeps.surround hsize) rfl (s₃.declarations_surround i f), hi₃.surround f, ?_⟩
  · refine hdraws.builds.alters halters (Or.inr hsize) fun _ j _ howner => ?_
    rw [hi₃.owner] at howner
    cases howner
  · rw [← hregistry]
    exact himports

/-- Linking a shader touches no library outside of `W`, and compiles those from which it imports. -/
theorem ends_link_draws (hs : s.Clear) (hn : s.WellNamed) (hW : s.Encloses W)
    (hcode : ImportsFrom code s.registry.libraries W) :
    Ends (fun _ s' => Draws W (fun _ => False) s s' ∧
        ImportsFrom code s.registry.libraries s'.IsCompiled)
      (Confines W (fun _ => False) s) (Registry.link code s) := by
  unfold Registry.link
  refine (ends_makeShader_draws hs hn hW hcode).bind fun i s₁ => ?_
  rintro ⟨h₁, hi, himports⟩
  have hs₁ := h₁.clear hs
  have hn₁ := hn.of_spares h₁.builds.frame
  have hregistry : s₁.registry = s.registry := h₁.keeps.registry
  have hgather : Ends (fun _ => Draws W (fun _ => False) s₁) (Confines W (fun _ => False) s₁)
      (gather i s₁) := by
    unfold gather
    apply ends_bind.2
    apply ends_get.2
    rw [hi.librariesOf]
    refine (hi.ends_reach_draws hs₁ hn₁ (hW.of_spares hs h₁.builds.frame)
      (hregistry ▸ hcode)).bind fun found s₂ h₂ => ?_
    apply ends_bind.2
    apply ends_get.2
    exact h₂.1
  refine ends_linkModule_of_gather (hgather.mono (fun ds s₂ h₂ s₃ hcalled => ?_) fun s₂ h₂ =>
    h₁.toConfines.trans h₂)
  have h₃ := h₁.trans hs₁ hn₁ (h₂.called hcalled)
  refine ⟨fun text _ => ⟨h₃, fun r hr horigin id hleads => ?_⟩, fun _ _ => h₃.toConfines⟩
  have hid := himports r hr horigin id hleads
  exact (h₂.called hcalled).keeps.isCompiled hid hid

/-! ## What is compiled -/

theorem Store.encloses_requires (s : Store) (code : Text) : s.Encloses (s.Requires code) :=
  fun _ hid _ hr _ h => .referred hid hr h

theorem ends_link_requires (hs : s.Clear) (hn : s.WellNamed) (code : Text) :
    Ends (fun _ s' => Draws (s.Requires code) (fun _ => False) s s' ∧
        ImportsFrom code s.registry.libraries s'.IsCompiled)
      (Confines (s.Requires code) (fun _ => False) s) (Registry.link code s) :=
  ends_link_draws hs hn (s.encloses_requires code) fun _ hr horigin _ h => .imported hr horigin h

theorem confines_link (hs : s.Clear) (hn : s.WellNamed) (code : Text) :
    Confines (s.Requires code) (fun _ => False) s (Registry.link code s).2 :=
  ((ends_link_requires hs hn code).mono (fun _ _ h => h.1.toConfines) fun _ h => h).snd

/-- If nothing was compiled before, all that a shader requires is compiled with what it imports. -/
theorem Store.Draws.isCompiled_of_requires {s' : Store} (hs : s.Clear)
    (h : Draws W (fun _ => False) s s')
    (himports : ImportsFrom code s.registry.libraries s'.IsCompiled)
    (hnone : ∀ id, ¬ s.IsCompiled id) {id : LibraryId} (hid : s.Requires code id) :
    s'.IsCompiled id := by
  induction hid with
  | imported hr horigin h => exact himports _ hr horigin _ h
  | @referred r id id' _ hr hleads ih =>
    have hfollowed := (h.followed id not_false ih).resolve_left (hnone id)
    obtain ⟨p, hp, d, hd, hrd⟩ :=
      ((h.clear hs).refers_iff ih).1 ((hs.refers_of_spares h.builds.frame).2 hr)
    rw [← h.builds.frame.dependencies] at hleads
    exact hfollowed p hp d hd r hrd id' hleads

/-- Linking a shader, whether it succeeds or fails, leaves all libraries as they are that the shader
does not require.  If it succeeds and nothing was compiled before, just those are compiled that it
requires. -/
theorem libraries_of_link (hs : s.Clear) (hn : s.WellNamed) (code : Text) :
    (∀ id, ¬ s.Requires code id → (Registry.link code s).2.library id = s.library id) ∧
      ((Registry.link code s).1.isOk = true → (∀ id, ¬ s.IsCompiled id) →
        ∀ id, (Registry.link code s).2.IsCompiled id ↔ s.Requires code id) := by
  have hwithin := (confines_link hs hn code).within
  refine ⟨hwithin, fun hok hnone id => ⟨fun hid => ?_, fun hid => ?_⟩⟩
  · by_contra hnot
    rw [IsCompiled, hwithin id hnot] at hid
    exact hnone id hid
  · obtain ⟨text, s', hlink⟩ := exists_eq_ok hok
    obtain ⟨hdraws, himports⟩ := (ends_link_requires hs hn code).of_eq_ok hlink
    rw [hlink]
    exact hdraws.isCompiled_of_requires hs himports hnone hid

end Requirements

/-! ## Libraries without plugins -/

section Building

variable {s s' : Store}

theorem Store.clear_empty : Clear {} where
  toSound := sound_empty
  built id i hi := by
    obtain ⟨path, hleaf⟩ := hi
    rw [library_of_size_le {} (Nat.zero_le id)] at hleaf
    cases hleaf
  fit := ⟨nofun, nofun⟩
  furnished id hid := by
    rw [IsCompiled, library_of_size_le {} (Nat.zero_le id)] at hid
    cases hid

/-- Nothing was done to the modules, and compiled libraries only got other dependencies. -/
theorem Store.Clear.of_modules (hs : s.Clear) (hs' : s'.Sound) (hmodules : s'.modules = s.modules)
    (hserial : s.nextSerial ≤ s'.nextSerial)
    (hbuilt : ∀ id i, s'.IsLeaf id i → i < s.modules.size)
    (hlibrary : ∀ id, s'.IsCompiled id → s.IsCompiled id ∧
      (s'.library id).leaves = (s.library id).leaves ∧
        (s'.library id).modules = (s.library id).modules) : s'.Clear := by
  have hmodule : s'.module = s.module := by
    funext i
    rw [module, module, hmodules]
  refine ⟨hs', hmodules ▸ hbuilt, hs.fit.of_modules hmodules hserial, fun id hid => ?_⟩
  obtain ⟨hcompiled, hleaves, hentered⟩ := hlibrary id hid
  have hfurnished := hs.furnished id hcompiled
  unfold Furnished at hfurnished ⊢
  rw [hentered, Library.places, hleaves]
  refine hfurnished.imp fun leaf p h => ⟨h.1, hmodules ▸ h.2.lt_size, ?_, ?_⟩
  · rw [hmodule]
    exact h.2.path
  · rw [hmodule]
    exact h.2.source

/-- A library without plugins is added, whose leaves exist. -/
theorem Store.Clear.addLibrary (hs : s.Clear) (name : Text) (definition : Definition)
    (dependencies : List LibraryId) (hdependencies : ∀ d ∈ dependencies, d < s.libraries.size)
    (hdefinition : ∀ p ∈ definition.leaves, p.2.isBelow s.modules.size = true) :
    (LinkM.addLibrary name definition [] dependencies s).2.Clear := by
  have hs' := (ends_addLibrary hs.toSound name definition hdependencies).snd
  let named := dependencies.map fun d => ((s.library d).name, d)
  let l : Library :=
    { name, definition, dependencies := Table.ofList ((name, s.libraries.size) :: named) }
  have hlibrary : ∀ id, (LinkM.addLibrary name definition [] dependencies s).2.library id =
      if id = s.libraries.size then l else s.library id := fun id => library_push s l id
  refine hs.of_modules hs' rfl le_rfl (fun id i hi => ?_) fun id hid => ?_
  · obtain ⟨path, hleaf⟩ := hi
    rw [hlibrary] at hleaf
    split at hleaf
    · obtain ⟨p, hp, heq⟩ := List.mem_map.1 hleaf
      have hbelow := hdefinition p hp
      rw [(Prod.ext_iff.1 heq).2] at hbelow
      exact of_decide_eq_true hbelow
    · exact hs.built id i ⟨path, hleaf⟩
  · rw [IsCompiled, hlibrary] at hid
    rw [hlibrary]
    split at hid
    · cases hid
    · rename_i hne
      rw [if_neg hne]
      exact ⟨hid, rfl, rfl⟩

theorem Store.Clear.addDependency (hs : s.Clear) (id dependency : LibraryId)
    (hdependency : dependency < s.libraries.size) :
    (LinkM.addDependency id dependency s).2.Clear := by
  have hs' := (ends_addDependency hs.toSound id hdependency).snd
  have hlibrary : ∀ j, ((LinkM.addDependency id dependency s).2.library j).leaves =
      (s.library j).leaves ∧ ((LinkM.addDependency id dependency s).2.library j).isCompiled =
        (s.library j).isCompiled ∧ ((LinkM.addDependency id dependency s).2.library j).modules =
          (s.library j).modules := by
    intro j
    have hmodify := library_modify s id j fun l =>
      { l with dependencies := l.dependencies.insert (s.library dependency).name dependency }
    have hj : (LinkM.addDependency id dependency s).2.library j = _ := hmodify
    rw [hj]
    split
    · rename_i heq
      rw [heq.1]
      exact ⟨rfl, rfl, rfl⟩
    · exact ⟨rfl, rfl, rfl⟩
  refine hs.of_modules hs' rfl le_rfl (fun j i hi => ?_) fun j hj => ?_
  · obtain ⟨path, hleaf⟩ := hi
    exact hs.built j i ⟨path, (hlibrary j).1 ▸ hleaf⟩
  · exact ⟨(hlibrary j).2.1.symm.trans hj, (hlibrary j).1, (hlibrary j).2.2⟩

theorem Store.Clear.register (hs : s.Clear) {id : LibraryId} (hid : id < s.libraries.size) :
    (Registry.addLibrary id s).2.Clear := by
  have hs' := (ends_register hs.toSound hid).snd
  let Same (s' : Store) : Prop :=
    s'.libraries = s.libraries ∧ s'.modules = s.modules ∧ s'.nextSerial = s.nextSerial
  have hsame : Same (Registry.addLibrary id s).2 := by
    refine Ends.snd (I := Same) ?_
    unfold Registry.addLibrary
    apply ends_bind.2
    apply ends_get.2
    split
    · apply ends_bind.2
      apply ends_modify.2
      exact ⟨rfl, rfl, rfl⟩
    · exact ⟨rfl, rfl, rfl⟩
  have hlibrary : (Registry.addLibrary id s).2.library = s.library := by
    funext j
    rw [library, library, hsame.1]
  refine hs.of_modules hs' hsame.2.1 hsame.2.2.ge (fun j i hi => ?_) fun j hj => ?_
  · rw [IsLeaf, hlibrary] at hi
    exact hs.built j i hi
  · rw [IsCompiled, hlibrary] at hj
    rw [hlibrary]
    exact ⟨hj, rfl, rfl⟩

theorem Store.Clear.makeModule (hs : s.Clear) (path source : Text) (isShader : Bool) {scope : Scope}
    (hplain : s.Plain scope) (hserial : scope.serial < s.nextSerial) :
    (ShaderLink.makeModule path source scope isShader s).2.Clear :=
  (((ends_makeModule_draws (W := fun _ => True) hs hplain hserial path source isShader).mono
    (fun _ _ h => h.1.toConfines) fun _ h => h).snd).clear hs

theorem Store.Clear.compile (hs : s.Clear) (hn : s.WellNamed) (id : LibraryId) :
    (ShaderLink.compile id s).2.Clear := by
  have hall : s.Encloses fun _ => True := fun _ _ _ _ _ _ => trivial
  exact (((drawing_compile _ id s hs hn hall trivial).mono (fun _ _ h => h.toConfines)
    fun _ h => h).snd).clear hs

theorem Store.Clear.link (hs : s.Clear) (hn : s.WellNamed) (code : Text) :
    (Registry.link code s).2.Clear ∧ (Registry.link code s).2.WellNamed :=
  ⟨(confines_link hs hn code).clear hs, hn.of_spares (confines_link hs hn code).builds.frame⟩

theorem Store.not_isCompiled_of_check
    (h : ∀ id < s.libraries.size, (s.library id).isCompiled = false) (id : LibraryId) :
    ¬ s.IsCompiled id := by
  by_cases hid : id < s.libraries.size
  · rw [IsCompiled, h id hid]
    exact Bool.false_ne_true
  · rw [IsCompiled, library_of_size_le _ (not_lt.1 hid)]
    exact Bool.false_ne_true

end Building

/-! ## A library that is not used -/

theorem clear_sampleStore : sampleStore.Clear := by
  have h₁ := clear_empty.addLibrary "shape".toList (.single (.code sampleShape)) [] nofun
    (by decide)
  have h₂ := h₁.addLibrary "noise".toList (.single (.code sampleNoise)) [0] (by decide) (by decide)
  exact (h₂.addDependency 0 1 (by decide)).register (by decide)

def spareText : Text := "export \x7b rest \x7d;\nfloat rest(float r) \x7b return r; \x7d\n".toList

/-- The libraries that import from each other, and one more in the registry. -/
def spareStore : Store :=
  (Registry.addLibrary 2
    (addLibrary "spare".toList (.single (.code spareText)) [] [] sampleStore).2).2

/-- A shader that imports from two libraries, but uses nothing of the second one. -/
def spareShader : Text :=
  ("import \x7b area \x7d from \"shape\";\nimport \x7b rest \x7d from \"spare\";\n" ++
    "void main() \x7b area(1.0); \x7d").toList

theorem clear_spareStore : spareStore.Clear :=
  (clear_sampleStore.addLibrary _ _ [] nofun (by decide)).register (by decide)

theorem libraries_of_link_spare : spareStore.Clear ∧ spareStore.WellNamed ∧
    (Registry.link spareShader spareStore).1.isOk = true ∧ (∀ id, ¬ spareStore.IsCompiled id) ∧
      (∀ id, ¬ spareStore.Requires spareShader id →
        (Registry.link spareShader spareStore).2.library id = spareStore.library id) ∧
      (∀ id, (Registry.link spareShader spareStore).2.IsCompiled id ↔
        spareStore.Requires spareShader id) ∧
      spareStore.Requires spareShader 1 ∧ ¬ spareStore.Requires spareShader 2 := by
  have hn : spareStore.WellNamed := ⟨by unfold Unambiguous; decide, by decide⟩
  obtain ⟨hok, hnoise, hspare⟩ : (Registry.link spareShader spareStore).1.isOk = true ∧
      ((Registry.link spareShader spareStore).2.library 1).isCompiled = true ∧
        ((Registry.link spareShader spareStore).2.library 2).isCompiled = false := by
    decide +kernel
  have hnone : ∀ id, ¬ spareStore.IsCompiled id := not_isCompiled_of_check (by decide)
  obtain ⟨hothers, hiff⟩ := libraries_of_link clear_spareStore hn spareShader
  refine ⟨clear_spareStore, hn, hok, hnone, hothers, hiff hok hnone, (hiff hok hnone 1).1 hnoise,
    fun hrequires => ?_⟩
  have hcompiled := (hiff hok hnone 2).2 hrequires
  rw [IsCompiled, hspare] at hcompiled
  cases hcompiled

/-! ## A library with the name of shaders -/

/-- A library with the name under which shaders are read. -/
def namesakeStore : Store :=
  (Registry.addLibrary 0 (addLibrary Registry.shaderPath
    (.single (.code "float g() \x7b return 1.0; \x7d".toList)) [] [] {}).2).2

/-- A shader that uses a function of its own. -/
def namesakeShader : Text := "float f() \x7b return 1.0; \x7d void main() \x7b f(); \x7d".toList

theorem clear_namesakeStore : namesakeStore.Clear :=
  (clear_empty.addLibrary _ _ [] nofun (by decide)).register (by decide)

/-- The path of what the shader uses leads to the library, which is not compiled for it. -/
theorem not_isCompiled_namesake : namesakeStore.Clear ∧ namesakeStore.WellNamed ∧
    (∀ id, ¬ namesakeStore.IsCompiled id) ∧
      (Registry.link namesakeShader namesakeStore).1.isOk = true ∧
        (∃ r, RefersIn Registry.shaderPath namesakeShader r ∧
          LeadsTo namesakeStore.registry.libraries r.path 0) ∧
        ¬ (Registry.link namesakeShader namesakeStore).2.IsCompiled 0 := by
  have hn : namesakeStore.WellNamed := ⟨by unfold Unambiguous; decide, by decide⟩
  obtain ⟨hok, hcompiled⟩ : (Registry.link namesakeShader namesakeStore).1.isOk = true ∧
      ((Registry.link namesakeShader namesakeStore).2.library 0).isCompiled = false := by
    decide +kernel
  have hread : ((Outline.read Registry.shaderPath (Comment.strip namesakeShader)).1.toOption.any
      fun o => o.declarations.any fun d => d.references.any (·.path == Registry.shaderPath)) =
        true := by
    decide +kernel
  obtain ⟨o, ho, hany⟩ := (Option.any_eq_true _ _).1 hread
  obtain ⟨d, hd, hany⟩ := List.any_eq_true.1 hany
  obtain ⟨r, hr, hpath⟩ := List.any_eq_true.1 hany
  refine ⟨clear_namesakeStore, hn, not_isCompiled_of_check (by decide), hok,
    ⟨r, ⟨o, toOption_eq_some_iff.1 ho, d, hd, hr⟩, ?_⟩, ?_⟩
  · rw [LeadsTo, beq_iff_eq.1 hpath]
    decide
  · rw [IsCompiled, hcompiled]
    exact Bool.false_ne_true

end ShaderLink
