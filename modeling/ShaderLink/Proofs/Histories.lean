import ShaderLink.Proofs.Sustaining

/-!
# Linking after other shaders

Linking a shader leaves libraries compiled, and some of them may be left so by a call that fails.
What a shader is linked to depends only on what its search finds (`Store.Yields`), and that is the
same in all stages of the libraries.  So a shader that can be linked with libraries that were just
made is linked to the same text whatever was linked before; and if all libraries that were left
compiled can be compiled on their own, nothing can be linked but what can be linked at first
(`outcome_afterLinks`).  Without that the outcome may depend on calls that failed
(`outcome_afterLinks_knot`).
-/

namespace ShaderLink

open LinkM Store

/-! ## What a shader is linked to -/

/-- The text that a shader is linked to, if that does not fail. -/
def Registry.outcome (code : Text) (s : Store) : Option Text := (Registry.link code s).1.toOption

namespace Store

/-- The store after some shaders were linked, or could not be linked. -/
def afterLinks (s : Store) (codes : List Text) : Store :=
  codes.foldl (fun s code => (Registry.link code s).2) s

/-- The module is a shader with that code. -/
structure IsShader (s : Store) (i : ModuleId) (code : Text) : Prop where
  stays : s.Stays i
  path : (s.module i).path = Registry.shaderPath
  source : (s.module i).source = code
  owner : (s.module i).scope.owner = .registry
  read : ∃ calls, (s.module i).ReadWith [] calls

/-- The shader finds all it needs without compiling anything, and is linked to that text. -/
def Yields (s : Store) (code t : Text) : Prop :=
  ∃ o found, (Outline.read Registry.shaderPath (Comment.strip code)).1 = .ok o ∧
    (Search.start o.declarations s.registry.libraries).Finishes s found ∧
      linkedWith o.code (o.declarations ++ found) = .ok t

variable {s₀ s s' t : Store} {code text text' : Text} {i : ModuleId}

theorem IsShader.of_bare (h : s.IsShader i code) (he : Extends s s')
    (hbare : (s'.module i).bare = (s.module i).bare) : s'.IsShader i code := by
  refine ⟨h.stays.extends he, (Module.path_of_bare hbare).trans h.path,
    (Module.source_of_bare hbare).trans h.source, ?_, ?_⟩
  · show (s'.module i).bare.scope.owner = .registry
    rw [hbare]
    exact h.owner
  · obtain ⟨calls, hread⟩ := h.read
    refine ⟨calls, ?_⟩
    show (s'.module i).bare.ReadWith [] calls
    rw [hbare]
    exact hread

/-- What was read in a shader. -/
theorem IsShader.exists_outline (h : s.IsShader i code) :
    ∃ o, (Outline.read Registry.shaderPath (Comment.strip code)).1 = .ok o ∧
      (s.module i).declarations.map unstamped = o.declarations.map unstamped ∧
        (s.module i).remainder = o.code := by
  obtain ⟨calls, hread⟩ := h.read
  obtain ⟨o, ho⟩ := hread.exists_readAs
  have hcode := ho.read
  rw [h.path, h.source] at hcode
  exact ⟨o, hcode, map_unstamped_of_numbers ho.declarations, ho.remainder⟩

theorem Stage.registry_eq (hs : Stage s₀ s) (ht : Stage s₀ t) : t.registry = s.registry :=
  ht.since.registry.trans hs.since.registry.symm

theorem Yields.extends (h : s.Yields code text) (hregistry : s'.registry = s.registry)
    (he : Extends s s') : s'.Yields code text := by
  obtain ⟨o, found, ho, hfinishes, htext⟩ := h
  rw [← hregistry] at hfinishes
  exact ⟨o, found, ho, hfinishes.extends he, htext⟩

/-- A search that finishes in some stage, as seen from another one. -/
theorem Stage.succeeds_start (hs : Stage s₀ s) (ht : Stage s₀ t) {roots roots' : List Declaration}
    {found : List Declaration} (hroots : roots.map unstamped = roots'.map unstamped)
    (h : (Search.start roots' t.registry.libraries).Finishes t found) :
    (Search.start roots s.registry.libraries).Succeeds t found := by
  rw [← Search.start_congr hroots, hs.registry_eq ht] at h
  exact ⟨_, fun d hd => absurd hd List.not_mem_nil, ⟨rfl, rfl, rfl⟩, h⟩

/-- A shader is linked to the same text in all stages in which it finds what it needs. -/
theorem Yields.unique (hs : Stage s₀ s) (ht : Stage s₀ t) (h : s.Yields code text)
    (h' : t.Yields code text') : text = text' := by
  obtain ⟨o, found, ho, hfinishes, htext⟩ := h
  obtain ⟨o', found', ho', hfinishes', htext'⟩ := h'
  cases ho.symm.trans ho'
  have hfound := hfinishes.found_eq hs ht (fun d hd => absurd hd List.not_mem_nil)
    (hs.succeeds_start ht rfl hfinishes')
  have hsame : (o.declarations ++ found).map unstamped =
      (o.declarations ++ found').map unstamped := by
    rw [List.map_append, List.map_append, hfound]
  rw [linkedWith_congr hsame] at htext
  exact Except.ok.inj (htext.symm.trans htext')

end Store

/-! ## Linking at a stage -/

section Link

variable {s₀ s : Store} {code : Text} {i : ModuleId}

/-- A search cannot fail if it succeeds in a stage in which all libraries sustain themselves. -/
theorem ends_reach_finishes (hs₀ : s₀.Fresh) (hs : Stage s₀ s) {roots : List Declaration}
    {libraries : Table Text LibraryId} (hr : (Search.start roots libraries).Held s) :
    Ends (fun found s' => Proceeds s₀ s s' ∧ (Search.start roots libraries).Finishes s' found)
      (fun s' => (Stage s₀ s' ∧ Frame s s') ∧ ∀ t found, Sustained s₀ t →
        ¬ (Search.start roots libraries).Succeeds t found) (reach roots libraries s) := by
  refine (ends_reachWith_finishes (dependable_compile hs₀) hs hr).mono (fun _ _ h => h)
    fun s' h => ⟨h.1, fun t found ht hsucceeds => ?_⟩
  exact (h.2 t found ht hsucceeds).not_gt (ht.missing_lt s)

/-- A shader is read in a module of its own. -/
theorem ends_makeModule_shader (hs : Stage s₀ s) {scope : Scope} (howner : scope.owner = .registry)
    (hserial : scope.serial < s.nextSerial) (code : Text) :
    Ends (fun i s' => Proceeds s₀ s s' ∧ s.modules.size ≤ i ∧ s'.IsShader i code)
      (fun s' => (Stage s₀ s' ∧ Frame s s') ∧ ¬ CanRead Registry.shaderPath code)
      (makeModule Registry.shaderPath code scope true s) := by
  have hplugins : s.pluginsOf scope = [] := by
    rw [pluginsOf, howner]
    exact hs.sound.registryPlugins
  have hplain : s.Plain scope := by
    intro libraries plugins h
    rw [howner] at h
    cases h
  have hscope : s.InScope scope := by
    refine ⟨hserial, fun p hp => ?_⟩
    rw [howner] at hp
    cases hp
  have hsoundly : Ends _ _ (makeModule Registry.shaderPath code scope true s) :=
    ends_makeModule (P := True) (C := fun _ => False) hs.sound hplain
  have hmake := (ends_makeModule_calls Registry.shaderPath code scope true).and hsoundly
  refine hmake.mono (fun i s₁ => ?_) fun s₁ => ?_
  · rintro ⟨⟨rfl, calls, s₂, m, h₂, rfl, hpath, hsource, hm, hread⟩, ⟨hsound, -⟩, -⟩
    let s₁ : Store := { s₂ with modules := s₂.modules.push m }
    obtain ⟨hs₂, hframe₂⟩ := hs.called h₂
    have hsize : s₂.modules.size = s.modules.size := by rw [h₂.modules]
    have hpush : Frame s₂ s₁ := spares_push m
    have hs₁ : Stage s₀ s₁ := by
      refine hs₂.next (hs₂.extends hpush) (spares_push m) hsound
        (hs₂.regular.push (hframe₂.inScope (hm ▸ hscope))) fun id hid hid' => absurd hid' hid
    have hmodule : s₁.module s.modules.size = m := by
      rw [module_push, if_pos hsize.symm]
    have hframe₁ : Frame s s₁ := hframe₂.trans hpush
    refine ⟨⟨hs₁, hframe₁, fun id hid hid' => ?_⟩, le_rfl, ⟨?_, ?_⟩, ?_, ?_, ?_, calls, ?_⟩
    · have hlibraries : s₁.libraries = s.libraries := h₂.libraries
      rw [IsCompiled, library, hlibraries] at hid'
      exact absurd hid' hid
    · rw [Array.size_push, hsize]
      exact Nat.lt_succ_self _
    · rintro ⟨id, -, hleaf⟩
      rw [hframe₁.isLeaf] at hleaf
      exact (hs.regular.built id _ hleaf).ne rfl
    · rw [hmodule, hpath]
    · rw [hmodule, hsource]
    · rw [hmodule, hm, howner]
    · rw [hmodule, ← hplugins]
      exact hread
  · rintro ⟨⟨⟨calls, h₁, -⟩, hread⟩, -⟩
    exact ⟨hs.called h₁, hread hplugins⟩

theorem Store.IsShader.librariesOf (hi : s.IsShader i code) :
    s.librariesOf (s.module i).scope = s.registry.libraries := by
  rw [Store.librariesOf, hi.owner]

/-- A shader finds what it needs, if it does so in some stage. -/
theorem Store.IsShader.succeeds (hs : Stage s₀ s) (hi : s.IsShader i code) {t : Store} {text : Text}
    (ht : Stage s₀ t) (h : t.Yields code text) : ∃ found,
      (Search.start (s.module i).declarations s.registry.libraries).Succeeds t found := by
  obtain ⟨o, found, ho, hfinishes, -⟩ := h
  obtain ⟨o', ho', hds, -⟩ := hi.exists_outline
  cases ho.symm.trans ho'
  exact ⟨found, hs.succeeds_start ht hds hfinishes⟩

/-- The text of a shader that has found what it needs. -/
theorem Store.IsShader.yields (hi : s.IsShader i code) {found : List Declaration} {text : Text}
    (hfinishes : (Search.start (s.module i).declarations s.registry.libraries).Finishes s found)
    (h : linkedWith (s.module i).remainder ((s.module i).declarations ++ found) = .ok text) :
    s.Yields code text := by
  obtain ⟨o, ho, hds, hremainder⟩ := hi.exists_outline
  rw [Search.start_congr hds] at hfinishes
  refine ⟨o, found, ho, hfinishes, ?_⟩
  rw [← h, hremainder]
  refine linkedWith_congr ?_ _
  rw [List.map_append, List.map_append, hds]

/-- It is the only text of the shader in all stages. -/
theorem Store.IsShader.linkedWith_eq_ok (hi : s.IsShader i code) (hs : Stage s₀ s) {t : Store}
    (ht : Stage s₀ t) {found : List Declaration} {text : Text}
    (hfinishes : (Search.start (s.module i).declarations s.registry.libraries).Finishes s found)
    (h : t.Yields code text) :
    linkedWith (s.module i).remainder ((s.module i).declarations ++ found) = .ok text := by
  obtain ⟨o, found', ho, hfinishes', htext⟩ := h
  obtain ⟨o', ho', hds, hremainder⟩ := hi.exists_outline
  cases ho.symm.trans ho'
  have hfound := hfinishes.found_eq hs ht (fun d hd => absurd hd List.not_mem_nil)
    (hs.succeeds_start ht hds hfinishes')
  rw [← htext, hremainder]
  refine linkedWith_congr ?_ _
  rw [List.map_append, List.map_append, hds, hfound]

/-- Making a shader compiles what it needs. -/
theorem ends_makeShader_finishes (hs₀ : s₀.Fresh) (hs : Stage s₀ s) (code : Text) :
    Ends (fun i s' => Proceeds s₀ s s' ∧ s'.IsShader i code)
      (fun s' => (Stage s₀ s' ∧ Frame s s') ∧ ∀ t text, Sustained s₀ t → ¬ t.Yields code text)
      (Registry.makeShader code s) := by
  unfold Registry.makeShader
  apply ends_bind.2
  apply ends_bind.2
  apply ends_get.2
  apply ends_bind.2
  apply ends_set.2
  apply ends_pure.2
  have hfresh : Called [] s { s with nextSerial := s.nextSerial + 1 } :=
    ⟨quiet_fresh s, (List.append_nil _).symm⟩
  have h₁ : Proceeds s₀ s _ := (Proceeds.refl hs).called hfresh
  refine ((ends_makeModule_shader h₁.stage rfl (Nat.lt_succ_self _) code).mono (fun i s₂ => ?_)
    fun s₂ => ?_) |> ends_bind.2
  · rintro ⟨h₂, hnew, hi⟩
    have h₂ := h₁.trans h₂
    refine ((ends_applyPluginsWith_finishes (dependable_compile hs₀) h₂.stage hi.stays
      hi.librariesOf).mono (fun _ s₄ => ?_) fun s₃ => ?_) |> ends_bind.2
    · rintro ⟨hs₄, s₃, found, h₃, -, hextends, halters, hbare⟩
      exact ⟨(h₂.trans h₃).alters hs₄ hextends halters fun _ => hnew,
        hi.of_bare ((h₂.stage.extends h₃.frame).trans hextends) hbare⟩
    · rintro ⟨⟨hs₃, hframe₃⟩, hmissing⟩
      refine ⟨⟨hs₃, h₂.frame.trans hframe₃⟩, fun t text ht hyields => ?_⟩
      obtain ⟨found, hsucceeds⟩ := hi.succeeds h₂.stage ht.toStage hyields
      exact (hmissing t found ht hsucceeds).not_gt (ht.missing_lt _)
  · rintro ⟨⟨hs₂, hframe₂⟩, hread⟩
    refine ⟨⟨hs₂, h₁.frame.trans hframe₂⟩, fun t text _ hyields => ?_⟩
    obtain ⟨o, -, ho, -⟩ := hyields
    exact hread ⟨o, ho⟩

/-- What goes into the text of a shader: its own declarations, and then all that was found. -/
theorem ends_gather_finishes (hs₀ : s₀.Fresh) (hs : Stage s₀ s) (hi : s.IsShader i code) :
    Ends (fun ds s' => Proceeds s₀ s s' ∧ s'.IsShader i code ∧
        ∃ found, ds = (s'.module i).declarations ++ found ∧
          (Search.start (s'.module i).declarations s'.registry.libraries).Finishes s' found)
      (fun s' => (Stage s₀ s' ∧ Frame s s') ∧ ∀ t text, Sustained s₀ t → ¬ t.Yields code text)
      (gather i s) := by
  unfold gather
  apply ends_bind.2
  apply ends_get.2
  rw [hi.librariesOf]
  have hheld := Search.held_start hi.stays (fun _ hd => hd) hs.regular.registered
  refine ((ends_reach_finishes hs₀ hs hheld).mono (fun found s₁ => ?_) fun s₁ => ?_) |>
    ends_bind.2
  · rintro ⟨h₁, hfinishes⟩
    apply ends_bind.2
    apply ends_get.2
    have hmodule := hi.stays.module_eq h₁.frame
    rw [← hmodule, ← hs.registry_eq h₁.stage] at hfinishes
    refine ⟨h₁, hi.of_bare (hs.extends h₁.frame) (congrArg Module.bare hmodule), found,
      congrArg _ (List.filter_eq_self.2 fun d hd => ?_), hfinishes⟩
    -- what was found has other ids than the declarations of the shader
    have hnew := hfinishes.new h₁.stage.sound (fun d hd => absurd hd List.not_mem_nil) d hd
    obtain ⟨hseen, j, hj⟩ := hnew.resolve_left List.not_mem_nil
    rw [Bool.not_eq_true', List.any_eq_false]
    intro e he hserial
    obtain rfl := h₁.stage.sound.eq_of_serial he hj (beq_iff_eq.1 hserial)
    exact hseen (List.mem_map_of_mem he)
  · rintro ⟨hs₁, hfails⟩
    refine ⟨hs₁, fun t text ht hyields => ?_⟩
    obtain ⟨found, hsucceeds⟩ := hi.succeeds hs ht.toStage hyields
    exact hfails t found ht hsucceeds

/-- A shader is linked with what it finds, and that fails only if it fails in all stages. -/
theorem ends_linkModule_yields (hs₀ : s₀.Fresh) (hs : Stage s₀ s) (hi : s.IsShader i code) :
    Ends (fun text s' => Proceeds s₀ s s' ∧ s'.Yields code text)
      (fun s' => (Stage s₀ s' ∧ Frame s s') ∧ ∀ t text, Sustained s₀ t → ¬ t.Yields code text)
      (linkModule i s) := by
  refine ends_linkModule_of_gather ((ends_gather_finishes hs₀ hs hi).imp fun ds s₁ => ?_)
  rintro ⟨h₁, hi₁, found, rfl, hfinishes⟩ s₂ hcalled
  have h₂ := h₁.called hcalled
  refine ⟨fun text htext => ⟨h₂, ?_⟩, fun fault hfault => ⟨⟨h₂.stage, h₂.frame⟩, ?_⟩⟩
  · exact (hi₁.yields hfinishes htext).extends hcalled.registry (h₁.stage.extends hcalled.spares)
  · intro t text ht hyields
    have hlinked := hi₁.linkedWith_eq_ok h₁.stage ht.toStage hfinishes hyields
    cases hlinked.symm.trans hfault

/-- What linking does at any stage of the libraries. -/
theorem ends_link_yields (hs₀ : s₀.Fresh) (hs : Stage s₀ s) (code : Text) :
    Ends (fun text s' => Proceeds s₀ s s' ∧ s'.Yields code text)
      (fun s' => (Stage s₀ s' ∧ Frame s s') ∧ ∀ t text, Sustained s₀ t → ¬ t.Yields code text)
      (Registry.link code s) := by
  unfold Registry.link
  refine (ends_makeShader_finishes hs₀ hs code).bind fun i s₁ => ?_
  rintro ⟨h₁, hi⟩
  refine (ends_linkModule_yields hs₀ h₁.stage hi).mono (fun text s₂ h => ⟨h₁.trans h.1, h.2⟩)
    fun s₂ h => ⟨⟨h.1.1, h₁.frame.trans h.1.2⟩, h.2⟩

end Link

/-! ## After other shaders -/

namespace Store

section Supply

variable {s₀ s s' t : Store} {code text : Text} {id : LibraryId}

theorem Fresh.sustained (hs₀ : s₀.Fresh) : Sustained s₀ s₀ :=
  ⟨hs₀.stage, fun id hid => absurd hid (hs₀.prepared.uncompiled id)⟩

theorem IsCompiled.lt_size (hid : s.IsCompiled id) : id < s.libraries.size := by
  by_contra hle
  rw [IsCompiled, library_of_size_le s (not_lt.1 hle)] at hid
  cases hid

/-- What is compiled in stages in which all libraries sustain themselves can be compiled at any
other stage as well. -/
theorem Stage.exists_proceeds (hs₀ : s₀.Fresh) (hs : Stage s₀ s) (ids : List LibraryId)
    (hids : ∀ id ∈ ids, ∃ t, Sustained s₀ t ∧ t.IsCompiled id) :
    ∃ s', Proceeds s₀ s s' ∧ ∀ id ∈ ids, s'.IsCompiled id := by
  induction ids generalizing s with
  | nil => exact ⟨s, .refl hs, fun id hid => absurd hid List.not_mem_nil⟩
  | cons id ids ih =>
    obtain ⟨t, ht, hid⟩ := hids id List.mem_cons_self
    have hlt : id < s.libraries.size := by
      rw [hs.since.size, ← ht.since.size]
      exact hid.lt_size
    have hends := dependable_compile hs₀ id s hs hlt
    rcases hcompile : compile id s with ⟨fault | _, s₁⟩
    · exact absurd ((hends.of_eq_error hcompile).2 t ht hid) (ht.missing_lt s).not_ge
    · obtain ⟨h₁, hid₁⟩ := hends.of_eq_ok hcompile
      obtain ⟨s₂, h₂, hall⟩ := ih h₁.stage fun j hj => hids j (List.mem_cons_of_mem _ hj)
      exact ⟨s₂, h₁.trans h₂, List.forall_mem_cons.2 ⟨h₂.frame.isCompiled hid₁, hall⟩⟩

/-- The libraries that are compiled, in order. -/
def compiled (s : Store) : List LibraryId :=
  (List.range s.libraries.size).filter fun id => s.IsCompiled id

theorem mem_compiled : id ∈ s.compiled ↔ s.IsCompiled id := by
  rw [compiled, List.mem_filter, List.mem_range, decide_eq_true_iff]
  exact ⟨fun h => h.2, fun h => ⟨h.lt_size, h⟩⟩

/-- Libraries that sustain themselves in one stage do so in each in which no less is compiled. -/
theorem Sustained.sustains_of_subset (ht : Sustained s₀ t) (hs : Stage s₀ s)
    (hsub : ∀ id, t.IsCompiled id → s.IsCompiled id) (hid : t.IsCompiled id) : s.Sustains id := by
  refine ⟨hsub id hid, fun p hp => ?_⟩
  obtain ⟨found, hsucceeds⟩ := hs.succeeds (hsub id hid) hp ht hid
  exact hsucceeds.finishes hs ht.toStage hsub fun d hd => absurd hd List.not_mem_nil

/-- If what was compiled at first is compiled in stages in which all libraries sustain themselves,
a later stage leads to such a stage. -/
theorem Proceeds.exists_sustained (hs₀ : s₀.Fresh) (h : Proceeds s₀ s s')
    (hids : ∀ id, s.IsCompiled id → ∃ t, Sustained s₀ t ∧ t.IsCompiled id) :
    ∃ s'', Sustained s₀ s'' ∧ Proceeds s₀ s' s'' := by
  obtain ⟨t, hstart, ht⟩ :=
    hs₀.stage.exists_proceeds hs₀ s.compiled fun id hid => hids id (mem_compiled.1 hid)
  have hsustained := hs₀.sustained.proceeds hstart
  obtain ⟨s'', h', hsub⟩ := h.stage.exists_proceeds hs₀ t.compiled fun id hid =>
    ⟨t, hsustained, mem_compiled.1 hid⟩
  refine ⟨s'', ⟨h'.stage, fun id hid => ?_⟩, h'⟩
  -- what was compiled at first sustains itself as it does in `t`, and the rest does so anyway
  by_cases hid₀ : s.IsCompiled id
  · exact hsustained.sustains_of_subset h'.stage (fun j hj => hsub j (mem_compiled.2 hj))
      (ht id (mem_compiled.2 hid₀))
  · exact (h.trans h').sustains id hid₀ hid

end Supply

end Store

section Outcome

variable {s₀ s t : Store} {codes : List Text} {code text : Text}

theorem Store.Stage.afterLinks (hs₀ : s₀.Fresh) (hs : Stage s₀ s) (codes : List Text) :
    Stage s₀ (s.afterLinks codes) := by
  induction codes generalizing s with
  | nil => exact hs
  | cons code codes ih =>
    exact ih ((ends_link_yields hs₀ hs code).mono (fun _ _ h => h.1.stage) fun _ h => h.1.1).snd

/-- If all links succeed, all libraries sustain themselves afterwards. -/
theorem Store.Sustained.afterLinks (hs₀ : s₀.Fresh) (hs : Sustained s₀ s)
    (h : ∀ before code rest, codes = before ++ code :: rest →
      (Registry.outcome code (s.afterLinks before)).isSome = true) :
    Sustained s₀ (s.afterLinks codes) := by
  induction codes generalizing s with
  | nil => exact hs
  | cons code codes ih =>
    have hsome := h [] code codes rfl
    have hends := ends_link_yields hs₀ hs.toStage code
    rw [afterLinks, List.foldl_nil, Registry.outcome] at hsome
    rw [afterLinks, List.foldl_cons]
    rcases hlink : Registry.link code s with ⟨fault | text, s'⟩
    · rw [hlink] at hsome
      cases hsome
    · refine ih (hs.proceeds (hends.of_eq_ok hlink).1) fun before code' rest hcodes => ?_
      have hlater := h (code :: before) code' rest (congrArg (code :: ·) hcodes)
      rw [afterLinks, List.foldl_cons, hlink] at hlater
      exact hlater

/-- A shader that is linked in some stage in which all libraries sustain themselves is linked to the
same text at any other stage. -/
theorem Store.Yields.outcome_eq (hs₀ : s₀.Fresh) (hs : Stage s₀ s) (ht : Sustained s₀ t)
    (h : t.Yields code text) : Registry.outcome code s = some text := by
  have hends := ends_link_yields hs₀ hs code
  rcases hlink : Registry.link code s with ⟨fault | text', s'⟩
  · exact absurd h ((hends.of_eq_error hlink).2 t text ht)
  · obtain ⟨h', hyields⟩ := hends.of_eq_ok hlink
    rw [Registry.outcome, hlink, hyields.unique h'.stage ht.toStage h]
    rfl

theorem exists_yields (hs₀ : s₀.Fresh) (hs : Stage s₀ s)
    (h : Registry.outcome code s = some text) :
    ∃ s', Proceeds s₀ s s' ∧ s'.Yields code text := by
  have hends := ends_link_yields hs₀ hs code
  rcases hlink : Registry.link code s with ⟨fault | text', s'⟩
  · rw [Registry.outcome, hlink] at h
    cases h
  · rw [Registry.outcome, hlink] at h
    cases h
    exact ⟨s', hends.of_eq_ok hlink⟩

/-- What can be linked with libraries that were just made is linked to the same text whatever was
linked, or could not be linked, before.  Nothing else can be linked then, unless a library was left
compiled that cannot be compiled on its own; and that does not happen if nothing failed. -/
theorem outcome_afterLinks (hs₀ : s₀.Fresh) (codes : List Text) (code : Text) :
    (∀ text, Registry.outcome code s₀ = some text →
      Registry.outcome code (s₀.afterLinks codes) = some text) ∧
    ((∀ id, (s₀.afterLinks codes).IsCompiled id → (compile id s₀).1.isOk = true) →
      Registry.outcome code (s₀.afterLinks codes) = Registry.outcome code s₀) ∧
    ((∀ before code' rest, codes = before ++ code' :: rest →
        (Registry.outcome code' (s₀.afterLinks before)).isSome = true) →
      Registry.outcome code (s₀.afterLinks codes) = Registry.outcome code s₀) := by
  have hs : Stage s₀ (s₀.afterLinks codes) := hs₀.stage.afterLinks hs₀ codes
  have hlater : ∀ text, Registry.outcome code s₀ = some text →
      Registry.outcome code (s₀.afterLinks codes) = some text := by
    intro text h
    obtain ⟨s', h', hyields⟩ := exists_yields hs₀ hs₀.stage h
    exact hyields.outcome_eq hs₀ hs (hs₀.sustained.proceeds h')
  -- it is enough that what can be linked later can be linked at first
  have hsame : (∀ text, Registry.outcome code (s₀.afterLinks codes) = some text →
      Registry.outcome code s₀ = some text) →
        Registry.outcome code (s₀.afterLinks codes) = Registry.outcome code s₀ :=
    fun h => Option.ext fun text => ⟨h text, hlater text⟩
  refine ⟨hlater, fun hcompile => hsame fun text h => ?_, fun hall => hsame fun text h => ?_⟩
  · obtain ⟨s', h', hyields⟩ := exists_yields hs₀ hs h
    obtain ⟨s'', hs'', h''⟩ := h'.exists_sustained hs₀ fun id hid => by
      obtain ⟨_, t, ht⟩ := exists_eq_ok (hcompile id hid)
      have hlt : id < s₀.libraries.size := hs.since.size ▸ hid.lt_size
      obtain ⟨hproceeds, hid'⟩ := (dependable_compile hs₀ id s₀ hs₀.stage hlt).of_eq_ok ht
      exact ⟨t, hs₀.sustained.proceeds hproceeds, hid'⟩
    have hyields'' := hyields.extends (h'.stage.registry_eq h''.stage)
      (h'.stage.extends h''.frame)
    exact hyields''.outcome_eq hs₀ hs₀.stage hs''
  · have hsustained := hs₀.sustained.afterLinks hs₀ hall
    obtain ⟨s', h', hyields⟩ := exists_yields hs₀ hs h
    exact hyields.outcome_eq hs₀ hs₀.stage (hsustained.proceeds h')

/-! ### Libraries that can be compiled

A shader that cannot be linked leaves the library compiled that it imports from. -/

/-- What has to be checked for no module to be a leaf of two libraries: no leaf is one. -/
theorem Store.separate_of_checks
    (h : ∀ id < s.libraries.size, ∀ leaf ∈ (s.library id).leaves, leaf.2.isBelow 0 = true) :
    s.Separate := by
  rintro id id' i ⟨path, hleaf⟩ -
  by_cases hid : id < s.libraries.size
  · have hbelow : decide (i < 0) = true := h id hid _ hleaf
    exact absurd (of_decide_eq_true hbelow) (Nat.not_lt_zero i)
  · rw [library_of_size_le s (not_lt.1 hid)] at hleaf
    cases hleaf

theorem fresh_sampleStore : sampleStore.Fresh :=
  ⟨session_sampleStore.sound, prepared_of_checks (by decide) (by decide) (by decide),
    separate_of_checks (by decide)⟩

/-- A shader that imports what its library does not export. -/
def strayShader : Text :=
  "import \x7b gone \x7d from \"shape\";\nvoid main() \x7b gone(); \x7d".toList

theorem outcome_afterLinks_sample : sampleStore.Fresh ∧
    Registry.outcome strayShader sampleStore = none ∧
    (sampleStore.afterLinks [strayShader]).IsCompiled 0 ∧
    (∀ id, (sampleStore.afterLinks [strayShader]).IsCompiled id →
      (compile id sampleStore).1.isOk = true) ∧
    (Registry.outcome sampleShader sampleStore).isSome = true ∧
    (∀ code, Registry.outcome code (sampleStore.afterLinks [strayShader]) =
      Registry.outcome code sampleStore) ∧
    ∀ code, Registry.outcome code (sampleStore.afterLinks [sampleShader]) =
      Registry.outcome code sampleStore := by
  have hcompile : ∀ id, (sampleStore.afterLinks [strayShader]).IsCompiled id →
      (compile id sampleStore).1.isOk = true := by
    intro id hid
    have hlt := hid.lt_size
    rw [(fresh_sampleStore.stage.afterLinks fresh_sampleStore [strayShader]).since.size] at hlt
    exact (by decide +kernel : ∀ id < sampleStore.libraries.size,
      (compile id sampleStore).1.isOk = true) id hlt
  have hsome : (Registry.outcome sampleShader sampleStore).isSome = true := by decide +kernel
  refine ⟨fresh_sampleStore, by decide +kernel, by unfold IsCompiled; decide +kernel, hcompile,
    hsome, fun code => ?_, fun code => ?_⟩
  · exact (outcome_afterLinks fresh_sampleStore [strayShader] code).2.1 hcompile
  · refine (outcome_afterLinks fresh_sampleStore [sampleShader] code).2.2 ?_
    rintro (_ | ⟨_, before⟩) code' rest h
    · cases h
      exact hsome
    · cases before <;> cases h

/-! ### Libraries that cannot -/

def knotOne : Text :=
  ("import \x7b g \x7d from \"b/two\";\nexport \x7b f \x7d;\n" ++
    "float f() \x7b return g(); \x7d\n").toList

def knotMissing : Text :=
  ("import \x7b missing \x7d from \"nowhere\";\n" ++
    "float h() \x7b return missing(); \x7d\n").toList

def knotTwo : Text :=
  ("import \x7b f \x7d from \"a/one\";\nexport \x7b g, k \x7d;\n" ++
    "float g() \x7b return 1.0; \x7d\nfloat k() \x7b return 2.0; \x7d\n" ++
    "float u() \x7b return f(); \x7d\n").toList

/-- Two libraries, each of which imports from the other; the first one needs a library that does
not exist, so that neither can be compiled. -/
def knotStore : Store :=
  let first : Tree Source :=
    .leaf "one".toList (.code knotOne) (.leaf "two".toList (.code knotMissing) .nil)
  let second : Tree Source := .leaf "two".toList (.code knotTwo) .nil
  let s₁ := (addLibrary "a".toList (.tree first) [] [] {}).2
  let s₂ := (addLibrary "b".toList (.tree second) [] [0] s₁).2
  (Registry.addLibrary 1 (Registry.addLibrary 0 (addDependency 0 1 s₂).2).2).2

theorem session_knotStore : knotStore.Session := by
  apply Session.register
  · apply Session.register
    · apply Session.dependency
      · apply Session.library
        · exact .library .empty _ _ [] nofun
        · decide
      · decide
    · decide
  · decide

theorem fresh_knotStore : knotStore.Fresh :=
  ⟨session_knotStore.sound, prepared_of_checks (by decide) (by decide) (by decide),
    separate_of_checks (by decide)⟩

def knotShader : Text :=
  "import \x7b f \x7d from \"a/one\";\nvoid main() \x7b f(); \x7d".toList

def knotProbe : Text :=
  "import \x7b k \x7d from \"b/two\";\nvoid main() \x7b k(); \x7d".toList

/-- A shader that cannot be linked may let another one be linked.  While the first library is being
compiled the second one is, to its end, for it finds what it needs in the first one as far as this
was made; then the first one fails and is undone, and the second one is not. -/
theorem outcome_afterLinks_knot : knotStore.Fresh ∧
    Registry.outcome knotShader knotStore = none ∧
    Registry.outcome knotProbe knotStore = none ∧
    Registry.outcome knotProbe (knotStore.afterLinks [knotShader]) =
      some ("/* b/two/k */\nfloat k() \x7b return 2.0; \x7d\n\n" ++
        "/* @shader/main */\nvoid main() \x7b k(); \x7d").toList :=
  ⟨fresh_knotStore, by decide +kernel, by decide +kernel, by decide +kernel⟩

end Outcome

end ShaderLink
