import ShaderLink.Proofs.Histories

/-!
# Whose library answers

The libraries that can be imported from differ from place to place, and two of them may have one
name; but a search looks each id up once.  So the library that is asked for an id first answers all
who refer to the id (`Search.Answering` is the invariant).  All are answered by the libraries that
they import from just if these agree for each id: `answered_afterLinks`.  Where two libraries of one
name come together, someone gets the declarations of the other one (`answered_afterLinks_twin`).
-/

namespace ShaderLink

open LinkM Store

/-! ## Who asks whom -/

namespace Store

/-- One of the declarations, which are linked with the shader `i`, refers to something that has to
be looked up in the libraries in the table: the shader imports it from the registered libraries, or
a module of a library needs it, which imports from those of that library. -/
inductive Asks (s : Store) (i : ModuleId) (ds : List Declaration) :
    Reference → Table Text LibraryId → Prop where
  | shader {d : Declaration} {r : Reference} (hd : d ∈ (s.module i).declarations)
      (hr : r ∈ d.references) (horigin : r.origin = .imported) :
      Asks s i ds r s.registry.libraries
  | library {d : Declaration} {r : Reference} {id : LibraryId} {p : Text × ModuleId} (hd : d ∈ ds)
      (hp : p ∈ (s.library id).modules) (hin : d ∈ (s.module p.2).declarations)
      (hr : r ∈ d.references) : Asks s i ds r (s.library id).dependencies

/-- What is linked under the id of a reference is what is declared under its name in the module at
its path, in the library that the one who refers to it imports from. -/
def Answered (s : Store) (i : ModuleId) (ds : List Declaration) : Prop :=
  ∀ r t, s.Asks i ds r t → ∃ id j, s.Stands t r.path id j ∧
    ∀ c, c ∈ ds ∧ c.id = r.id ↔ c ∈ (s.module j).declarations ∧ c.name = r.name

/-- All who refer to an id import it from the same library, and it is no id of the shader. -/
structure Agreed (s : Store) (i : ModuleId) (ds : List Declaration) : Prop where
  library : ∀ r t r' t', s.Asks i ds r t → s.Asks i ds r' t' → r.id = r'.id →
    t.get? (firstSegment r.path) = t'.get? (firstSegment r'.path)
  foreign : ∀ r t, s.Asks i ds r t → ∀ d ∈ (s.module i).declarations, d.id ≠ r.id

variable {s₀ s : Store} {i j : ModuleId} {id id' : LibraryId} {p p' : Text × ModuleId}
  {d : Declaration} {ds ds' : List Declaration} {r : Reference} {t : Table Text LibraryId}

theorem Asks.mono (h : s.Asks i ds r t) (hds : ∀ d ∈ ds, d ∈ ds') : s.Asks i ds' r t := by
  cases h with
  | shader hd hr horigin => exact .shader hd hr horigin
  | library hd hp hin hr => exact .library (hds _ hd) hp hin hr

/-- The name in a reference is one segment of its id. -/
theorem Asks.isSegment (hs : s.Sound) (h : s.Asks i ds r t) : IsSegment r.name := by
  cases h with
  | shader hd hr _ => exact (hs.numbered i).references _ hd _ hr
  | library _ _ hin hr => exact (hs.numbered _).references _ hin _ hr

theorem Stage.exists_occupies (hs : Stage s₀ s) (hp : p ∈ (s.library id).modules) :
    ∃ leaf ∈ (s.library id).leaves, leaf.1 = p.1 ∧ Occupies s₀ s id leaf p.2 := by
  have hid : s.IsCompiled id := by
    by_contra hid
    rw [hs.sound.idle id (Bool.eq_false_iff.2 hid)] at hp
    cases hp
  exact (hs.populated id hid).exists_occupies hp

theorem Stage.owner_eq (hs : Stage s₀ s) (hp : p ∈ (s.library id).modules) :
    (s.module p.2).scope.owner = .library id := by
  obtain ⟨leaf, -, -, ho⟩ := hs.exists_occupies hp
  exact ho.owner

/-- A declaration stands in one library only. -/
theorem Stage.library_unique (hs : Stage s₀ s) (hp : p ∈ (s.library id).modules)
    (hp' : p' ∈ (s.library id').modules) (hd : d ∈ (s.module p.2).declarations)
    (hd' : d ∈ (s.module p'.2).declarations) : id' = id := by
  have howner := hs.owner_eq hp
  rw [hs.sound.apart _ _ d hd d hd' rfl, hs.owner_eq hp'] at howner
  exact Owner.library.inj howner

/-- What a shader declares stands in no library. -/
theorem IsShader.not_mem_library {code : Text} (hi : s.IsShader i code) (hs : Stage s₀ s)
    (hp : p ∈ (s.library id).modules) (hd : d ∈ (s.module i).declarations) :
    d ∉ (s.module p.2).declarations := by
  intro hd'
  have howner := hi.owner
  rw [hs.sound.apart _ _ d hd d hd' rfl, hs.owner_eq hp] at howner
  cases howner

end Store

/-! ## The invariant -/

namespace Search

/-- What was found answers those who asked for it first; the roots are the declarations of the
shader `i`. -/
structure Answering (s : Store) (i : ModuleId) (q : Search) : Prop where
  kept : Kept s q
  roots : ∀ d ∈ (s.module i).declarations, d.id ∈ q.seen
  found : ∀ d ∈ q.found, ∃ id, ∃ p ∈ (s.library id).modules, d ∈ (s.module p.2).declarations
  /-- What is pending was asked for, or the shader declares it. -/
  pending : ∀ p ∈ q.pending, s.Asks i q.found p.reference p.libraries ∨
    ∃ d ∈ (s.module i).declarations, d.id = p.reference.id
  /-- All that was asked for was seen, or it is pending. -/
  asked : ∀ r t, s.Asks i q.found r t →
    r.id ∈ q.seen ∨ ∃ p ∈ q.pending, p.reference = r ∧ p.libraries = t
  answer : ∀ x ∈ q.seen, (∃ d ∈ (s.module i).declarations, d.id = x) ∨ ∃ p id ds,
    s.Asks i q.found p.reference p.libraries ∧ p.reference.id = x ∧ Leads s p id ds ∧
      ∀ c, c ∈ q.found ∧ c.id = x ↔ c ∈ ds

variable {s₀ s : Store} {i : ModuleId} {q q' : Search} {found : List Declaration}

/-- Names of the shader that its declarations use are declared there. -/
theorem answering_start (hs : s.Sound) (i : ModuleId) :
    Answering s i (start (s.module i).declarations s.registry.libraries) where
  kept d hd := absurd hd List.not_mem_nil
  roots d hd := List.mem_map_of_mem hd
  found d hd := absurd hd List.not_mem_nil
  pending p hp := by
    obtain ⟨d, hd, r, hr, rfl⟩ := mem_references.1 hp
    cases horigin : r.origin with
    | imported => exact Or.inl (.shader hd hr horigin)
    | ambient =>
      obtain ⟨c, hc, hpath, hname⟩ := (hs.numbered i).declared d hd r hr horigin
      exact Or.inr ⟨c, hc, congrArg₂ idOf hpath hname⟩
  asked r t h := by
    cases h with
    | shader hd hr _ => exact Or.inr ⟨_, mem_references.2 ⟨_, hd, _, hr, rfl⟩, rfl, rfl⟩
    | library hd => exact absurd hd List.not_mem_nil
  answer x hx := Or.inl (List.mem_map.1 hx)

theorem Answering.dropped {p : Pending} {rest : List Pending} (h : Answering s i q)
    (hpending : q.pending = p :: rest) (hseen : p.reference.id ∈ q.seen) :
    Answering s i { q with pending := rest } where
  kept := h.kept
  roots := h.roots
  found := h.found
  pending p' hp' := h.pending p' (hpending ▸ List.mem_cons_of_mem _ hp')
  asked r t hasks := by
    rcases h.asked r t hasks with hr | ⟨p', hp', rfl, rfl⟩
    · exact Or.inl hr
    · rcases List.mem_cons.1 (hpending ▸ hp') with rfl | hp'
      · exact Or.inl hseen
      · exact Or.inr ⟨p', hp', rfl, rfl⟩
  answer := h.answer

theorem Answering.followed {p : Pending} {rest : List Pending} {id : LibraryId}
    {ds : List Declaration} (hs : Stage s₀ s) (h : Answering s i q)
    (hpending : q.pending = p :: rest) (hnew : p.reference.id ∉ q.seen)
    (hleads : Leads s p id ds) :
    Answering s i
      { found := q.found ++ ds
        seen := p.reference.id :: q.seen
        pending := references ds (s.library id).dependencies ++ rest } := by
  obtain ⟨m, hm, hsub, hid⟩ := hleads.exists_module hs.sound
  have hasks : s.Asks i q.found p.reference p.libraries := by
    refine (h.pending p (hpending ▸ List.mem_cons_self)).resolve_right ?_
    rintro ⟨d, hd, hdid⟩
    exact hnew (hdid ▸ h.roots d hd)
  have hmono : ∀ d ∈ q.found, d ∈ q.found ++ ds := fun d hd => List.mem_append_left _ hd
  refine ⟨fun d hd => ?_, fun d hd => List.mem_cons_of_mem _ (h.roots d hd), fun d hd => ?_,
    fun p' hp' => ?_, fun r t hr => ?_, fun x hx => ?_⟩
  · rcases List.mem_append.1 hd with hd | hd
    · exact ⟨List.mem_cons_of_mem _ (h.kept d hd).1, (h.kept d hd).2⟩
    · exact ⟨hid d hd ▸ List.mem_cons_self, m.2, hsub.subset hd⟩
  · rcases List.mem_append.1 hd with hd | hd
    · exact h.found d hd
    · exact ⟨id, m, hm, hsub.subset hd⟩
  · rcases List.mem_append.1 hp' with hp' | hp'
    · obtain ⟨d, hd, r, hr, rfl⟩ := mem_references.1 hp'
      exact Or.inl (.library (List.mem_append_right _ hd) hm (hsub.subset hd) hr)
    · exact (h.pending p' (hpending ▸ List.mem_cons_of_mem _ hp')).imp_left (·.mono hmono)
  · have hold : s.Asks i q.found r t → r.id ∈ p.reference.id :: q.seen ∨
        ∃ p' ∈ references ds (s.library id).dependencies ++ rest,
          p'.reference = r ∧ p'.libraries = t := by
      intro hr
      rcases h.asked r t hr with hr | ⟨p', hp', rfl, rfl⟩
      · exact Or.inl (List.mem_cons_of_mem _ hr)
      · rcases List.mem_cons.1 (hpending ▸ hp') with rfl | hp'
        · exact Or.inl List.mem_cons_self
        · exact Or.inr ⟨p', List.mem_append_right _ hp', rfl, rfl⟩
    cases hr with
    | shader hd hr horigin => exact hold (.shader hd hr horigin)
    | @library d r id' m' hd hm' hin hr =>
      rcases List.mem_append.1 hd with hd' | hd'
      · exact hold (.library hd' hm' hin hr)
      · rw [hs.library_unique hm hm' (hsub.subset hd') hin]
        have hp' : ⟨r, d.id, (s.library id).dependencies⟩ ∈
            references ds (s.library id).dependencies := mem_references.2 ⟨d, hd', r, hr, rfl⟩
        exact Or.inr ⟨_, List.mem_append_left _ hp', rfl, rfl⟩
  · rcases List.mem_cons.1 hx with rfl | hx
    · refine Or.inr ⟨p, id, ds, hasks.mono hmono, rfl, hleads, fun c => ⟨fun ⟨hc, hcid⟩ => ?_,
        fun hc => ⟨List.mem_append_right _ hc, hid c hc⟩⟩⟩
      refine (List.mem_append.1 hc).resolve_left fun hc => hnew ?_
      exact hcid ▸ (h.kept c hc).1
    · refine (h.answer x hx).imp_right ?_
      rintro ⟨p', id', ds', hasks', rfl, hleads', hall⟩
      refine ⟨p', id', ds', hasks'.mono hmono, rfl, hleads', fun c => ?_⟩
      rw [← hall c, List.mem_append, or_and_right]
      refine or_iff_left fun ⟨hc, hcid⟩ => hnew ?_
      rwa [← hid c hc, hcid]

theorem Answering.moved (hs : Stage s₀ s) (h : Answering s i q) (hmoved : q.step s = .moved q') :
    Answering s i q' := by
  have hstepped := stepped s q
  rw [hmoved] at hstepped
  cases hstepped with
  | dropped hpending hseen => exact h.dropped hpending hseen
  | followed hpending hnew hleads =>
    rw [h.kept.foldl_addFound hs.sound hnew hleads]
    exact h.followed hs hpending hnew hleads

/-- What is found in the end: all that was asked for was seen. -/
theorem Finishes.exists_answering (hs : Stage s₀ s) (h : Finishes s q found)
    (hq : Answering s i q) : ∃ q', Answering s i q' ∧ q'.found = found ∧ q'.pending = [] := by
  induction h with
  | done hpending => exact ⟨_, hq, rfl, hpending⟩
  | moved hmoved _ ih => exact ih (hq.moved hs hmoved)

end Search

/-! ## Whom all agree on -/

section Agreement

variable {s₀ s : Store} {i : ModuleId} {q : Search} {code : Text} {ds : List Declaration}
  {r : Reference} {t : Table Text LibraryId}

/-- What is asked for is asked for by the shader, or by something that was found. -/
theorem Store.Asks.of_linked (h : s.Asks i ds r t) (hs : Stage s₀ s) (hi : s.IsShader i code)
    (hds : ∀ d ∈ ds, d ∈ (s.module i).declarations ∨ d ∈ q.found) : s.Asks i q.found r t := by
  cases h with
  | shader hd hr horigin => exact .shader hd hr horigin
  | library hd hp hin hr =>
    have hfound := (hds _ hd).resolve_left fun hd' => hi.not_mem_library hs hp hd' hin
    exact .library hfound hp hin hr

namespace Search.Answering

/-- Something is linked under each id that is asked for. -/
theorem exists_linked (h : Search.Answering s i q) (hpending : q.pending = []) (hs : Stage s₀ s)
    (hi : s.IsShader i code) (hds : ∀ d, d ∈ ds ↔ d ∈ (s.module i).declarations ∨ d ∈ q.found)
    (hasks : s.Asks i ds r t) : ∃ c ∈ ds, c.id = r.id := by
  have hseen : r.id ∈ q.seen :=
    (h.asked r t (hasks.of_linked hs hi fun d => (hds d).1)).resolve_right (by simp [hpending])
  rcases h.answer _ hseen with ⟨d, hd, hid⟩ | ⟨p, id, ds', -, -, hleads, hall⟩
  · exact ⟨d, (hds d).2 (Or.inl hd), hid⟩
  · obtain ⟨-, -, hne, -⟩ := hleads.exists_stands
    obtain ⟨c, hc⟩ := List.exists_mem_of_ne_nil _ hne
    obtain ⟨hfound, hid⟩ := (hall c).2 hc
    exact ⟨c, (hds c).2 (Or.inr hfound), hid⟩

/-- Those who refer to an id all get the answer to the one who asked first. -/
theorem answered (h : Search.Answering s i q) (hpending : q.pending = []) (hs : Stage s₀ s)
    (hi : s.IsShader i code) (hds : ∀ d, d ∈ ds ↔ d ∈ (s.module i).declarations ∨ d ∈ q.found)
    (hagreed : s.Agreed i ds) : s.Answered i ds := by
  intro r t hasks
  have hforeign := hagreed.foreign r t hasks
  have hseen : r.id ∈ q.seen :=
    (h.asked r t (hasks.of_linked hs hi fun d => (hds d).1)).resolve_right (by simp [hpending])
  obtain ⟨p, id, ds', hfirst, hid, hleads, hall⟩ :=
    (h.answer _ hseen).resolve_left fun ⟨d, hd, hid⟩ => hforeign d hd hid
  have hfirst := hfirst.mono fun d hd => (hds d).2 (Or.inr hd)
  obtain ⟨j, hj, -, hmem⟩ := hleads.exists_stands
  obtain ⟨hpath, hname⟩ := idOf_inj (hasks.isSegment hs.sound) (hfirst.isSegment hs.sound) hid.symm
  have hlibrary := hagreed.library _ _ _ _ hasks hfirst hid.symm
  refine ⟨id, j, ⟨hpath ▸ hj.named, hlibrary.trans hj.library, hpath ▸ hj.module⟩, fun c => ?_⟩
  rw [hname, ← hmem c, ← hall c, hds c, or_and_right]
  exact or_iff_right fun ⟨hc, hid⟩ => hforeign c hc hid

end Search.Answering

/-- What is linked under an id stands in one library only. -/
theorem Store.Answered.agreed (h : s.Answered i ds) (hs : Stage s₀ s) (hi : s.IsShader i code)
    (hshader : ∀ d ∈ (s.module i).declarations, d ∈ ds)
    (hlinked : ∀ r t, s.Asks i ds r t → ∃ c ∈ ds, c.id = r.id) : s.Agreed i ds := by
  refine ⟨fun r t r' t' hasks hasks' hid => ?_, fun r t hasks d hd hid => ?_⟩
  · obtain ⟨k, j, hj, hmem⟩ := h r t hasks
    obtain ⟨k', j', hj', hmem'⟩ := h r' t' hasks'
    obtain ⟨c, hc, hcid⟩ := hlinked r t hasks
    have hin := ((hmem c).1 ⟨hc, hcid⟩).1
    have hin' := ((hmem' c).1 ⟨hc, hcid.trans hid⟩).1
    rw [hj.library, hj'.library, hs.library_unique (Table.mem_of_get?_eq_some hj.module)
      (Table.mem_of_get?_eq_some hj'.module) hin hin']
  · obtain ⟨k, j, hj, hmem⟩ := h r t hasks
    have hin := ((hmem d).1 ⟨hshader d hd, hid⟩).1
    exact hi.not_mem_library hs (Table.mem_of_get?_eq_some hj.module) hd hin

end Agreement

/-! ## Linking -/

section Link

variable {s₀ s s' : Store} {i : ModuleId} {ds : List Declaration} {codes : List Text}
  {code text : Text}

theorem ends_collect {Q : ModuleId × List Declaration → Store → Prop} {E : Store → Prop} :
    Ends Q E (Registry.collect code s) ↔
      Ends (fun i s₁ => Ends (fun ds => Q (i, ds)) E (gather i s₁)) E
        (Registry.makeShader code s) := by
  unfold Registry.collect
  rw [ends_bind]
  simp only [ends_bind, ends_pure]

/-- The text of a shader is that of what was collected for it. -/
theorem exists_collect_of_link (h : Registry.link code s = (.ok text, s')) :
    ∃ i ds s₁, Registry.collect code s = (.ok (i, ds), s₁) ∧
      linkedWith (s₁.module i).remainder ds = .ok text := by
  rcases hcollect : Registry.collect code s with ⟨fault | ⟨i, ds⟩, s₁⟩
  · have hends : Ends (fun _ _ => False) (fun _ => True) (Registry.collect code s) := by
      rw [hcollect]
      trivial
    have hlink : Ends (fun _ _ => False) (fun _ => True) (Registry.link code s) :=
      ends_bind.2 ((ends_collect.1 hends).imp fun i s₁ h =>
        ends_linkModule_of_gather (h.imp fun _ _ h => h.elim))
    exact (hlink.of_eq_ok h).elim
  · have hends : Ends (fun p s₂ => p = (i, ds) ∧ s₂ = s₁) (fun _ => True)
        (Registry.collect code s) := by
      rw [hcollect]
      exact ⟨rfl, rfl⟩
    have hlink : Ends (fun text _ => linkedWith (s₁.module i).remainder ds = .ok text)
        (fun _ => True) (Registry.link code s) := by
      refine ends_bind.2 ((ends_collect.1 hends).imp fun i' s₂ h =>
        ends_linkModule_of_gather (h.imp fun ds' s₃ => ?_))
      rintro ⟨heq, rfl⟩ s₄ -
      cases heq
      exact ⟨fun _ htext => htext, fun _ _ => trivial⟩
    exact ⟨i, ds, s₁, rfl, hlink.of_eq_ok h⟩

theorem ends_collect_finishes (hs₀ : s₀.Fresh) (hs : Stage s₀ s) (code : Text) :
    Ends (fun p s' => Stage s₀ s' ∧ s'.IsShader p.1 code ∧
        ∃ found, p.2 = (s'.module p.1).declarations ++ found ∧
          (Search.start (s'.module p.1).declarations s'.registry.libraries).Finishes s' found)
      (fun _ => True) (Registry.collect code s) := by
  refine ends_collect.2 ((ends_makeShader_finishes hs₀ hs code).mono (fun i s₁ => ?_)
    fun _ _ => trivial)
  rintro ⟨h₁, hi⟩
  exact (ends_gather_finishes hs₀ h₁.stage hi).mono
    (fun ds s₂ ⟨h₂, hi₂, hfound⟩ => ⟨h₂.stage, hi₂, hfound⟩) fun _ _ => trivial

/-- What was collected for a linked shader was found by a search that has come to its end. -/
theorem exists_search_of_link (hs₀ : s₀.Fresh)
    (h : Registry.link code (s₀.afterLinks codes) = (.ok text, s')) :
    ∃ i ds s q, Registry.collect code (s₀.afterLinks codes) = (.ok (i, ds), s) ∧
      linkedWith (s.module i).remainder ds = .ok text ∧ Stage s₀ s ∧ s.IsShader i code ∧
      Search.Answering s i q ∧ q.pending = [] ∧
        ∀ d, d ∈ ds ↔ d ∈ (s.module i).declarations ∨ d ∈ q.found := by
  obtain ⟨i, ds, s, hcollect, htext⟩ := exists_collect_of_link h
  have hs := hs₀.stage.afterLinks hs₀ codes
  obtain ⟨hs, hi, found, hds, hfinishes⟩ :=
    (ends_collect_finishes hs₀ hs code).of_eq_ok hcollect
  obtain ⟨q, hq, rfl, hpending⟩ :=
    hfinishes.exists_answering hs (Search.answering_start hs.sound i)
  refine ⟨i, ds, s, q, hcollect, htext, hs, hi, hq, hpending, fun d => ?_⟩
  rw [← List.mem_append]
  exact hds ▸ Iff.rfl

/-- What is linked comes from the shader and from libraries, and all who refer to something get it
from the library that they import from, just if they agree on one for each id. -/
theorem answered_afterLinks (hs₀ : s₀.Fresh)
    (h : Registry.link code (s₀.afterLinks codes) = (.ok text, s')) :
    ∃ i ds s, Registry.collect code (s₀.afterLinks codes) = (.ok (i, ds), s) ∧
      linkedWith (s.module i).remainder ds = .ok text ∧ s.IsShader i code ∧
      (∀ d ∈ (s.module i).declarations, d ∈ ds) ∧
      (∀ d ∈ ds, d ∈ (s.module i).declarations ∨
        ∃ id, ∃ p ∈ (s.library id).modules, d ∈ (s.module p.2).declarations) ∧
      (s.Answered i ds ↔ s.Agreed i ds) := by
  obtain ⟨i, ds, s, q, hcollect, htext, hs, hi, hq, hpending, hmem⟩ := exists_search_of_link hs₀ h
  have hshader : ∀ d ∈ (s.module i).declarations, d ∈ ds := fun d hd => (hmem d).2 (Or.inl hd)
  refine ⟨i, ds, s, hcollect, htext, hi, hshader, fun d hd => ?_, fun h => ?_, fun h => ?_⟩
  · exact ((hmem d).1 hd).imp_right (hq.found d)
  · exact h.agreed hs hi hshader fun r t hasks => hq.exists_linked hpending hs hi hmem hasks
  · exact hq.answered hpending hs hi hmem h

end Link

/-! ### Two libraries of one name -/

def twinFirst : Text := "export \x7b f \x7d;\nfloat f() \x7b return 1.0; \x7d\n".toList

def twinSecond : Text := "export \x7b f \x7d;\nfloat f() \x7b return 2.0; \x7d\n".toList

def twinNoise : Text :=
  ("import \x7b f \x7d from \"random\";\nexport \x7b noise \x7d;\n" ++
    "float noise() \x7b return f(); \x7d\n").toList

/-- Two libraries of one name: shaders import from the first one, and another library imports from
the second one. -/
def twinStore : Store :=
  let s₁ := (addLibrary "random".toList (.single (.code twinFirst)) [] [] {}).2
  let s₂ := (addLibrary "random".toList (.single (.code twinSecond)) [] [] s₁).2
  let s₃ := (addLibrary "noise".toList (.single (.code twinNoise)) [] [1] s₂).2
  (Registry.addLibrary 2 (Registry.addLibrary 0 s₃).2).2

theorem session_twinStore : twinStore.Session := by
  apply Session.register
  · apply Session.register
    · apply Session.library
      · exact .library (.library .empty _ _ [] nofun) _ _ [] nofun
      · decide
    · decide
  · decide

theorem fresh_twinStore : twinStore.Fresh :=
  ⟨session_twinStore.sound, prepared_of_checks (by decide) (by decide) (by decide),
    separate_of_checks (by decide)⟩

def noiseShader : Text :=
  "import \x7b noise \x7d from \"noise\";\nvoid main() \x7b noise(); \x7d".toList

def twinShader : Text :=
  ("import \x7b f \x7d from \"random\";\nimport \x7b noise \x7d from \"noise\";\n" ++
    "void main() \x7b f(); noise(); \x7d").toList

theorem answered_afterLinks_noise : twinStore.Fresh ∧ ∃ text s',
    Registry.link noiseShader (twinStore.afterLinks []) = (.ok text, s') ∧
      ∃ i ds s, Registry.collect noiseShader (twinStore.afterLinks []) = (.ok (i, ds), s) ∧
        linkedWith (s.module i).remainder ds = .ok text ∧ s.IsShader i noiseShader ∧
        (∀ d ∈ (s.module i).declarations, d ∈ ds) ∧
        (∀ d ∈ ds, d ∈ (s.module i).declarations ∨
          ∃ id, ∃ p ∈ (s.library id).modules, d ∈ (s.module p.2).declarations) ∧
        (s.Answered i ds ↔ s.Agreed i ds) := by
  have hok : (Registry.link noiseShader (twinStore.afterLinks [])).1.isOk = true := by
    decide +kernel
  obtain ⟨text, s', hlink⟩ := exists_eq_ok hok
  exact ⟨fresh_twinStore, text, s', hlink, answered_afterLinks fresh_twinStore hlink⟩

/-- The shader calls the function of the second library, for the other library has asked for it
first. -/
theorem answered_afterLinks_twin : twinStore.Fresh ∧
    (Registry.link twinShader twinStore).1.toOption =
      some ("/* random/f */\nfloat f() \x7b return 2.0; \x7d\n\n" ++
        "/* noise/noise */\nfloat noise() \x7b return f(); \x7d\n\n" ++
        "/* @shader/main */\nvoid main() \x7b f(); noise(); \x7d").toList ∧
    ∃ i ds s, Registry.collect twinShader twinStore = (.ok (i, ds), s) ∧ ¬ s.Answered i ds := by
  refine ⟨fresh_twinStore, by decide +kernel, ?_⟩
  -- the shader imports the function, and what is linked is not declared where the import leads
  have hchecks : (Registry.collect twinShader twinStore).1.isOk = true ∧
      ∀ p ∈ (Registry.collect twinShader twinStore).1.toOption,
        (∃ d ∈ ((Registry.collect twinShader twinStore).2.module p.1).declarations,
          ∃ r ∈ d.references, r.origin = .imported ∧ r.path = "random".toList ∧
            r.id = "random/f".toList) ∧
        (Registry.collect twinShader twinStore).2.registry.libraries.get? "random".toList =
          some 0 ∧
        ∃ c ∈ p.2, c.id = "random/f".toList ∧
          ∀ q ∈ ((Registry.collect twinShader twinStore).2.library 0).modules,
            c ∉ ((Registry.collect twinShader twinStore).2.module q.2).declarations := by
    decide +kernel
  obtain ⟨hok, hall⟩ := hchecks
  obtain ⟨⟨i, ds⟩, s, hcollect⟩ := exists_eq_ok hok
  rw [hcollect] at hall
  obtain ⟨⟨d, hd, r, hr, horigin, hpath, hid⟩, hlibrary, c, hc, hcid, hnot⟩ :=
    hall (i, ds) rfl
  refine ⟨i, ds, s, hcollect, fun h => ?_⟩
  obtain ⟨id, j, hj, hmem⟩ := h r _ (.shader hd hr horigin)
  have hget : s.registry.libraries.get? "random".toList = some id := by
    have hsegment : firstSegment r.path = "random".toList := by
      rw [hpath]
      decide
    exact hsegment ▸ hj.library
  obtain rfl := Option.some.inj (hlibrary.symm.trans hget)
  exact hnot _ (Table.mem_of_get?_eq_some hj.module) ((hmem c).1 ⟨hc, hcid.trans hid.symm⟩).1

end ShaderLink
