import ShaderLink.Proofs.Linking

/-!
# Sessions

A session builds libraries and modules without plugins, and compiles and links in any order
(`Store.Session`); whatever fails on the way stays as it was left.  All stores of a session are
sound (`Session.sound`), so that `link_linked` holds for each shader that is linked in one.
-/

namespace ShaderLink

open LinkM Store

variable {s : Store}

/-- The stores that can be reached without plugins.  Steps that fail are steps as well. -/
inductive Store.Session : Store → Prop where
  | empty : Session {}
  | library {s : Store} (hs : Session s) (name : Text) (definition : Definition)
      (dependencies : List LibraryId) (h : ∀ d ∈ dependencies, d < s.libraries.size) :
      Session (addLibrary name definition [] dependencies s).2
  | dependency {s : Store} (hs : Session s) (id dependency : LibraryId)
      (h : dependency < s.libraries.size) : Session (addDependency id dependency s).2
  | module {s : Store} (hs : Session s) (path source : Text) (scope : Scope) (isShader : Bool)
      (h : s.Plain scope) : Session (makeModule path source scope isShader s).2
  | bind {s : Store} (hs : Session s) (i : ModuleId) (scope : Scope) (h : s.Plain scope) :
      Session (bindModule i scope s).2
  | compile {s : Store} (hs : Session s) (id : LibraryId) : Session (ShaderLink.compile id s).2
  | lookup {s : Store} (hs : Session s) (id : LibraryId) (path name : Text) (origin : Origin)
      (user : Text) : Session (ShaderLink.lookup id path name origin user s).2
  | apply {s : Store} (hs : Session s) (i : ModuleId) : Session (applyPlugins i s).2
  | register {s : Store} (hs : Session s) (id : LibraryId) (h : id < s.libraries.size) :
      Session (Registry.addLibrary id s).2
  | reset {s : Store} (hs : Session s) : Session { s with registry := {} }
  | shader {s : Store} (hs : Session s) (code : Text) : Session (Registry.makeShader code s).2
  | link {s : Store} (hs : Session s) (i : ModuleId) : Session (linkModule i s).2

/-! ## Building -/

theorem Ends.snd {ε σ α : Type} {I : σ → Prop} {r : Except ε α × σ} (h : Ends (fun _ => I) I r) :
    I r.2 := by
  rcases r with ⟨_ | _, s⟩ <;> exact h

theorem Store.sound_empty : Sound {} where
  numbered _ := numbered_nil _ _
  apart _ _ := nofun
  named _ := nofun
  itself _ := nofun
  registered := nofun
  plain i libraries plugins h := by
    rw [module_of_size_le {} (Nat.zero_le i)] at h
    cases h
    exact ⟨nofun, rfl⟩
  plugins id := by rw [library_of_size_le {} (Nat.zero_le id)]
  registryPlugins := rfl
  placed _ := nofun
  idle id _ := by rw [library_of_size_le {} (Nat.zero_le id)]

theorem ends_addLibrary (hs : s.Sound) (name : Text) (definition : Definition)
    {dependencies : List LibraryId} (h : ∀ d ∈ dependencies, d < s.libraries.size) :
    Ends (fun _ => Sound) Sound (addLibrary name definition [] dependencies s) := by
  unfold addLibrary
  apply ends_bind.2
  apply ends_get.2
  apply ends_bind.2
  apply ends_set.2
  apply ends_pure.2
  let named := dependencies.map fun d => ((s.library d).name, d)
  let l : Library :=
    { name, definition, dependencies := Table.ofList ((name, s.libraries.size) :: named) }
  let s' : Store := { s with libraries := s.libraries.push l }
  have hold : ∀ id < s.libraries.size, s'.library id = s.library id := by
    intro id hid
    rw [library_push, if_neg hid.ne]
  have hnew : ∀ id, s'.library id = l ∨ s'.library id = s.library id := by
    intro id
    rw [library_push]
    split
    · exact Or.inl rfl
    · exact Or.inr rfl
  have hsize : s.libraries.size ≤ s'.libraries.size := by simp [s']
  have hname : ∀ id < s.libraries.size, (s'.library id).name = (s.library id).name :=
    fun id hid => congrArg Library.name (hold id hid)
  have hl : s'.Names l.dependencies := by
    intro p hp
    rcases List.mem_cons.1 (Table.mem_of_mem_ofList hp) with rfl | hp
    · refine ⟨by simp [s'], ?_⟩
      rw [library_push, if_pos rfl]
    · obtain ⟨d, hd, rfl⟩ := List.mem_map.1 hp
      exact ⟨(h d hd).trans_le hsize, hname d (h d hd)⟩
  refine ⟨hs.numbered, hs.apart, fun id => ?_, fun id hid => ?_,
    hs.registered.of_names hsize hname, fun i => (hs.plain i).of_names hsize hname, fun id => ?_,
    hs.registryPlugins, fun id p hp => ?_, fun id hid => ?_⟩
  · rcases hnew id with h | h <;> rw [h]
    · exact hl
    · exact (hs.named id).of_names hsize hname
  · rw [library_push]
    split
    · exact Table.mem_keys_ofList.2 List.mem_cons_self
    · rename_i hne
      rw [Array.size_push] at hid
      exact hs.itself id (Nat.lt_of_le_of_ne (Nat.lt_succ_iff.1 hid) hne)
  · rcases hnew id with h | h <;> rw [h]
    exact hs.plugins id
  · rcases hnew id with h | h <;> rw [h] at hp ⊢
    · cases hp
    · exact hs.placed id p hp
  · rcases hnew id with h | h <;> rw [h] at hid ⊢
    exact hs.idle id hid

theorem ends_addDependency (hs : s.Sound) (id : LibraryId) {dependency : LibraryId}
    (h : dependency < s.libraries.size) :
    Ends (fun _ => Sound) Sound (addDependency id dependency s) := by
  unfold addDependency
  apply ends_bind.2
  apply ends_get.2
  apply ends_modify.2
  refine hs.changeLibrary rfl rfl (fun p hp => ?_)
    (fun k hk => Table.mem_keys_insert.2 (Or.inr hk)) (hs.placed id) fun _ => hs.idle id
  rcases Table.mem_of_mem_insert hp with rfl | hp
  · exact ⟨h, rfl⟩
  · exact hs.named id p hp

theorem Store.Sound.changeRegistry (hs : s.Sound) {r : Registry} (hr : s.Names r.libraries)
    (hplugins : r.plugins = []) : Sound { s with registry := r } :=
  ⟨hs.numbered, hs.apart, hs.named, hs.itself, hr, hs.plain, hs.plugins, hplugins, hs.placed,
    hs.idle⟩

theorem ends_register (hs : s.Sound) {id : LibraryId} (h : id < s.libraries.size) :
    Ends (fun _ => Sound) Sound (Registry.addLibrary id s) := by
  have hrest : ∀ s', Quiet s s' → Sound { s' with registry :=
      { s'.registry with libraries := s'.registry.libraries.insert (s.library id).name id } } := by
    intro s' hquiet
    have hs' := hs.of_quiet hquiet
    refine hs'.changeRegistry (fun p hp => ?_) hs'.registryPlugins
    rcases Table.mem_of_mem_insert hp with rfl | hp
    · rw [hquiet.libraries, hquiet.library]
      exact ⟨h, rfl⟩
    · exact hs'.registered p hp
  unfold Registry.addLibrary
  apply ends_bind.2
  apply ends_get.2
  by_cases hknown : (s.registry.libraries.get? (s.library id).name).isSome = true
  · rw [if_pos hknown]
    apply ends_bind.2
    apply ends_modify.2
    exact hrest _ (quiet_note _)
  · rw [if_neg hknown]
    exact hrest s (.refl s)

theorem ends_lookup (hs : s.Sound) (id : LibraryId) (path name : Text) (origin : Origin)
    (user : Text) : Ends (fun _ => Sound) Sound (lookup id path name origin user s) := by
  unfold lookup
  refine (compiles_compile id s hs).bind fun _ s' hs' => ?_
  apply ends_bind.2
  apply ends_get.2
  exact ends_ofExcept.2 ⟨fun _ _ => hs'.1, fun _ _ => hs'.1⟩

theorem Store.Session.sound (h : s.Session) : s.Sound := by
  induction h with
  | empty => exact sound_empty
  | library hs name definition dependencies h ih => exact (ends_addLibrary ih name definition h).snd
  | dependency hs id dependency h ih => exact (ends_addDependency ih id h).snd
  | module hs path source scope isShader h ih =>
    exact ((ends_makeModule (P := True) (C := fun _ => False) ih h).imp
      fun _ _ h => h.1.1).snd
  | bind hs i scope h ih =>
    exact ((ends_bindModule (P := False) (C := fun _ => False) ih h nofun).imp
      fun _ _ h => h.1.1).snd
  | compile hs id ih => exact ((compiles_compile id _ ih).imp fun _ _ h => h.1).snd
  | lookup hs id path name origin user ih => exact (ends_lookup ih id path name origin user).snd
  | apply hs i ih =>
    exact ((ends_applyPluginsWith compiles_compile ih).imp fun _ _ h => h.1).snd
  | register hs id h ih => exact (ends_register ih h).snd
  | reset hs ih => exact ih.changeRegistry nofun rfl
  | shader hs code ih => exact ((ends_makeShader ih code).imp fun _ _ h => h.1).snd
  | link hs i ih => exact ((ends_linkModule ih i).imp fun _ _ h => h.1.1).snd

/-- A linked shader consists of what it needs, each declaration once and after those it refers to,
whenever linking succeeds in a session whose libraries have different names, none of them that of
shaders.  Its text is what is left of the code, and a block for each of these declarations. -/
theorem link_linked {s s' : Store} {code t : Text} (hs : s.Session) (hu : s.Unambiguous)
    (hshader : ∀ id < s.libraries.size, (s.library id).name ≠ Registry.shaderPath)
    (h : Registry.link code s = (.ok t, s')) :
    ∃ i ds s₁ ordered o, Registry.collect code s = (.ok (i, ds), s₁) ∧
      Precedence.sort ds = .ok ordered ∧ s'.LinkedTo i code o ds ordered t := by
  have hout : s.Outside Registry.shaderPath := by
    intro id
    by_cases hid : id < s.libraries.size
    · exact hshader id hid
    · rw [library_of_size_le s (not_lt.1 hid)]
      decide
  exact ((ends_link hs.sound code).of_eq_ok h).2 hu hout

/-! ## Libraries that import from each other -/

def sampleShape : Text :=
  ("import \x7b wave \x7d from \"noise\";\nexport \x7b area, unit \x7d;\n" ++
    "float area(float r) \x7b return r * wave(r); \x7d\n" ++
    "float unit(float r) \x7b return r; \x7d\n").toList

def sampleNoise : Text :=
  ("import \x7b unit \x7d from \"shape\";\nexport \x7b wave \x7d;\n" ++
    "float wave(float x) \x7b return unit(x); \x7d\n" ++
    "float wave(vec2 p) \x7b return wave(p.x); \x7d\n").toList

def sampleShader : Text :=
  "import \x7b area \x7d from \"shape\";\nvoid main() \x7b area(1.0); \x7d".toList

/-- Two libraries, each of which imports from the other, and a registry with one of them. -/
def sampleStore : Store :=
  let s₁ := (addLibrary "shape".toList (.single (.code sampleShape)) [] [] {}).2
  let s₂ := (addLibrary "noise".toList (.single (.code sampleNoise)) [] [0] s₁).2
  (Registry.addLibrary 0 (addDependency 0 1 s₂).2).2

theorem session_sampleStore : sampleStore.Session := by
  apply Session.register
  · apply Session.dependency
    · apply Session.library
      · exact .library .empty _ _ [] nofun
      · decide
    · decide
  · decide

/-- A shader with a declaration of a name that is also needed from a library. -/
def unitShader : Text :=
  ("import \x7b area \x7d from \"shape\";\nfloat unit = 1.0;\n\n\n" ++
    "// linked last\nvoid main() \x7b area(unit); \x7d").toList

def unitText : Text :=
  ("/* @shader/unit */\nfloat unit_0 = 1.0;\n\n" ++
    "/* shape/unit */\nfloat unit_1(float r) \x7b return r; \x7d\n\n" ++
    "/* noise/wave */\nfloat wave(float x) \x7b return unit_1(x); \x7d\n\n" ++
    "/* noise/wave */\nfloat wave(vec2 p) \x7b return wave(p.x); \x7d\n\n" ++
    "/* shape/area */\nfloat area(float r) \x7b return r * wave(r); \x7d\n\n" ++
    "/* @shader/main */\nvoid main() \x7b area(unit_0); \x7d").toList

theorem link_linked_sample :
    sampleStore.Unambiguous ∧
    (∀ id < sampleStore.libraries.size, (sampleStore.library id).name ≠ Registry.shaderPath) ∧
    ∃ s', Registry.link unitShader sampleStore = (.ok unitText, s') ∧
      ∃ i ds s₁ ordered o, Registry.collect unitShader sampleStore = (.ok (i, ds), s₁) ∧
        Precedence.sort ds = .ok ordered ∧ s'.LinkedTo i unitShader o ds ordered unitText ∧
          ordered.map (·.id) = ["@shader/unit".toList, "shape/unit".toList, "noise/wave".toList,
            "noise/wave".toList, "shape/area".toList, "@shader/main".toList] := by
  have hu : sampleStore.Unambiguous := by
    unfold Unambiguous
    decide
  have hshader : ∀ id < sampleStore.libraries.size,
      (sampleStore.library id).name ≠ Registry.shaderPath := by decide
  have htext : (Registry.link unitShader sampleStore).1.toOption = some unitText := by
    decide +kernel
  have hids : (do
      let p ← (Registry.collect unitShader sampleStore).1.toOption
      return (← (Precedence.sort p.2).toOption).map (·.id)) =
        some ["@shader/unit".toList, "shape/unit".toList, "noise/wave".toList,
          "noise/wave".toList, "shape/area".toList, "@shader/main".toList] := by
    decide +kernel
  rcases hlink : Registry.link unitShader sampleStore with ⟨r, s'⟩
  rw [hlink] at htext
  obtain rfl : r = .ok unitText := toOption_eq_some_iff.1 htext
  obtain ⟨i, ds, s₁, ordered, o, hcollect, hsort, hlinked⟩ :=
    link_linked session_sampleStore hu hshader hlink
  rw [hcollect] at hids
  simp only [Except.toOption, hsort, Option.bind_eq_bind, Option.bind_some] at hids
  exact ⟨hu, hshader, s', rfl, i, ds, s₁, ordered, o, hcollect, hsort, hlinked,
    Option.some.inj hids⟩

end ShaderLink
