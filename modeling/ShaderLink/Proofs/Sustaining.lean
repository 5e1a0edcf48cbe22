import Mathlib.Data.Finset.Card
import ShaderLink.Proofs.Finishing

/-!
# Libraries that find what they need

A compiled library sustains itself if its modules find all they need in libraries that are compiled
(`Store.Sustains`).  When compiling ends well, this is true of all libraries that were compiled on
the way (`Store.Proceeds`); when it fails, some of them may be left for which it is not, since what
they need was not completed.  On the other hand compiling a library cannot fail if it is compiled in
some stage in which all libraries sustain themselves, whatever was compiled before
(`Dependable`): each search then does what it does in that stage.
-/

namespace ShaderLink

open LinkM

namespace Store

instance (s : Store) (id : LibraryId) : Decidable (s.IsCompiled id) :=
  inferInstanceAs (Decidable ((s.library id).isCompiled = true))

/-- The library is compiled, and its modules find all they need without compiling more. -/
structure Sustains (s : Store) (id : LibraryId) : Prop where
  compiled : s.IsCompiled id
  finishes : ∀ p ∈ (s.library id).modules, ∃ found, Search.Finishes s
    (Search.start (s.module p.2).declarations (s.library id).dependencies) found

/-- All libraries that are compiled sustain themselves. -/
structure Sustained (s₀ s : Store) : Prop extends Stage s₀ s where
  sustains : ∀ id, s.IsCompiled id → s.Sustains id

/-- One stage comes after another one, and what was compiled meanwhile sustains itself. -/
structure Proceeds (s₀ s s' : Store) : Prop where
  stage : Stage s₀ s'
  frame : Frame s s'
  sustains : ∀ id, ¬ s.IsCompiled id → s'.IsCompiled id → s'.Sustains id

/-- The number of libraries that are compiled in `t`, but not in this store. -/
def missing (s t : Store) : Nat :=
  ((Finset.range t.libraries.size).filter fun id => t.IsCompiled id ∧ ¬ s.IsCompiled id).card

variable {s₀ s s' s'' t : Store} {id : LibraryId}

theorem Sustains.extends (h : s.Sustains id) (he : Extends s s') : s'.Sustains id := by
  refine ⟨he.isCompiled h.compiled, fun p hp => ?_⟩
  rw [he.library id h.compiled] at hp ⊢
  rw [Module.declarations_of_bare (he.modules id h.compiled p hp)]
  obtain ⟨found, hfinishes⟩ := h.finishes p hp
  exact ⟨found, hfinishes.extends he⟩

theorem Proceeds.refl (hs : Stage s₀ s) : Proceeds s₀ s s :=
  ⟨hs, .refl _ _ s, fun _ hid hid' => absurd hid' hid⟩

theorem Proceeds.trans (h : Proceeds s₀ s s') (h' : Proceeds s₀ s' s'') : Proceeds s₀ s s'' where
  stage := h'.stage
  frame := h.frame.trans h'.frame
  sustains id hid hid'' := by
    by_cases hid' : s'.IsCompiled id
    · exact (h.sustains id hid hid').extends (h.stage.extends h'.frame)
    · exact h'.sustains id hid' hid''

theorem Proceeds.called {calls : Calls} (h : Proceeds s₀ s s') (h' : Called calls s' s'') :
    Proceeds s₀ s s'' := by
  obtain ⟨hs'', hframe⟩ := h.stage.called h'
  refine h.trans ⟨hs'', hframe, fun id hid hid' => ?_⟩
  rw [IsCompiled, h'.toQuiet.library] at hid'
  exact absurd hid' hid

/-- What plugins see of a module does not matter. -/
theorem Proceeds.alters {i : ModuleId} {calls : Calls} (h : Proceeds s₀ s s') (hs'' : Stage s₀ s'')
    (he : Extends s' s'') (ha : Alters i calls s' s'') (hi : ¬ s.IsFree i → s.modules.size ≤ i) :
    Proceeds s₀ s s'' where
  stage := hs''
  frame := h.frame.alters ha hi
  sustains id hid hid'' := by
    rw [IsCompiled, ha.library] at hid''
    exact (h.sustains id hid hid'').extends he

theorem Sustained.proceeds (hs : Sustained s₀ s) (h : Proceeds s₀ s s') : Sustained s₀ s' := by
  refine ⟨h.stage, fun id hid' => ?_⟩
  by_cases hid : s.IsCompiled id
  · exact (hs.sustains id hid).extends (hs.toStage.extends h.frame)
  · exact h.sustains id hid hid'

/-! ### What is missing -/

theorem missing_le (t : Store) (h : ∀ id, s.IsCompiled id → s'.IsCompiled id) :
    s'.missing t ≤ s.missing t := by
  refine Finset.card_le_card fun id hid => ?_
  rw [Finset.mem_filter] at hid ⊢
  exact ⟨hid.1, hid.2.1, fun hs => hid.2.2 (h id hs)⟩

theorem missing_lt (h : ∀ id, s.IsCompiled id → s'.IsCompiled id)
    (hlt : id < t.libraries.size) (ht : t.IsCompiled id) (hid : ¬ s.IsCompiled id)
    (hid' : s'.IsCompiled id) : s'.missing t < s.missing t := by
  refine Finset.card_lt_card ⟨fun j hj => ?_, fun hsub => ?_⟩
  · rw [Finset.mem_filter] at hj ⊢
    exact ⟨hj.1, hj.2.1, fun hs => hj.2.2 (h j hs)⟩
  · have hmem := hsub (Finset.mem_filter.2 ⟨Finset.mem_range.2 hlt, ht, hid⟩)
    exact (Finset.mem_filter.1 hmem).2.2 hid'

theorem missing_le_size (s t : Store) : s.missing t ≤ t.libraries.size :=
  (Finset.card_filter_le _ _).trans (Finset.card_range _).le

/-- No more can be missing than there is. -/
theorem Sustained.missing_lt (ht : Sustained s₀ t) (s : Store) :
    s.missing t < s₀.libraries.size + 1 := by
  have hle := missing_le_size s t
  rw [ht.since.size] at hle
  omega

end Store

open Store

/-- What compiling to a depth does in any stage of the libraries. -/
def Dependable (s₀ : Store) (depth : Nat) (compile : LibraryId → LinkM Unit) : Prop :=
  ∀ id (s : Store), Stage s₀ s → id < s.libraries.size →
    Ends (fun _ s' => Proceeds s₀ s s' ∧ s'.IsCompiled id)
      (fun s' => (Stage s₀ s' ∧ Frame s s') ∧
        ∀ t, Sustained s₀ t → t.IsCompiled id → depth ≤ s.missing t) (compile id s)

/-! ## Searching -/

section Search

variable {compile : LibraryId → LinkM Unit} {s₀ s : Store} {depth : Nat} {r : Search}
  {i : ModuleId}

theorem ends_explore_finishes (hcompile : Dependable s₀ depth compile) {fuel : Nat}
    (hs : Stage s₀ s) (hr : r.Held s) :
    Ends (fun found s' => Proceeds s₀ s s' ∧ r.Finishes s' found)
      (fun s' => (Stage s₀ s' ∧ Frame s s') ∧ ∀ t found, Sustained s₀ t → r.Succeeds t found →
        depth ≤ s.missing t ∨ fuel ≤ s.missing t) (explore compile fuel r s) := by
  induction fuel generalizing s r with
  | zero => exact ⟨⟨hs, .refl _ _ s⟩, fun _ _ _ _ => Or.inr (Nat.zero_le _)⟩
  | succ fuel ih =>
    obtain ⟨q, hq, hfinishes, hsucceeds, hrun, hend⟩ := hr.run hs
    have hfits : ∀ {t found}, Sustained s₀ t → r.Succeeds t found → (q.step s).Fits t found :=
      fun ht h => (hsucceeds _ _ ht.toStage h).step hs ht.toStage hq.kept
    have hstepped := Search.stepped s q
    rw [explore_succ, hrun]
    cases hstep : q.step s with
    | finished found =>
      rw [hstep] at hstepped
      cases hstepped with
      | finished hpending => exact ⟨.refl hs, hfinishes s _ (.refl s) (.done hpending)⟩
    | failed fault =>
      rw [hstep] at hfits
      exact ⟨⟨hs, .refl _ _ s⟩, fun t found ht h => (hfits ht h).elim⟩
    | moved q' => exact absurd hstep (hend q')
    | needs id q' =>
      rw [hstep] at hstepped hfits
      cases hstepped with
      | needs hpending hlibrary hcompiled =>
        rename_i p rest
        have hid : id < s.libraries.size := hq.inRange p (hpending ▸ List.mem_cons_self) _
          (Table.mem_of_get?_eq_some (Pending.library_eq_ok_iff.1 hlibrary).2)
        refine ((hcompile id s hs hid).mono (fun _ s₁ => ?_) fun s₁ h₁ =>
          ⟨h₁.1, fun t found ht h => Or.inl (h₁.2 t ht (hfits ht h))⟩) |> ends_bind.2
        rintro ⟨h₁, hid₁⟩
        refine (ih h₁.stage (hq.frame h₁.frame)).mono (fun found s₂ => ?_) fun s₂ => ?_
        · rintro ⟨h₂, hfinishes₂⟩
          have hproceeds := h₁.trans h₂
          exact ⟨hproceeds, hfinishes s₂ found (hs.extends hproceeds.frame) hfinishes₂⟩
        · rintro ⟨⟨hs₂, hframe₂⟩, hmissing⟩
          refine ⟨⟨hs₂, h₁.frame.trans hframe₂⟩, fun t found ht h => ?_⟩
          have hless : s₁.missing t < s.missing t := by
            refine missing_lt (fun j hj => h₁.frame.isCompiled hj) ?_ (hfits ht h)
              (by simp [IsCompiled, hcompiled]) hid₁
            rw [ht.since.size, ← hs.since.size]
            exact hid
          have hrest := hmissing t found ht (hsucceeds t found ht.toStage h)
          omega

theorem ends_reachWith_finishes (hcompile : Dependable s₀ depth compile) (hs : Stage s₀ s)
    {roots : List Declaration} {libraries : Table Text LibraryId}
    (hr : (Search.start roots libraries).Held s) :
    Ends (fun found s' => Proceeds s₀ s s' ∧ (Search.start roots libraries).Finishes s' found)
      (fun s' => (Stage s₀ s' ∧ Frame s s') ∧ ∀ t found, Sustained s₀ t →
        (Search.start roots libraries).Succeeds t found → depth ≤ s.missing t)
      (reachWith compile roots libraries s) := by
  unfold reachWith
  apply ends_bind.2
  apply ends_get.2
  refine (ends_explore_finishes hcompile hs hr).mono (fun _ _ h => h) fun s' h => ?_
  refine ⟨h.1, fun t found ht hsucceeds => (h.2 t found ht hsucceeds).resolve_right ?_⟩
  rw [hs.since.size]
  exact (ht.missing_lt s).not_ge

end Search

/-! ## The modules of a library -/

section Modules

variable {compile : LibraryId → LinkM Unit} {s₀ s s₁ s' : Store} {depth : Nat} {id : LibraryId}
  {i : ModuleId} {calls : Calls}

/-- What plugins see of a module does not matter. -/
theorem Store.Stage.alters (hs : Stage s₀ s) (hi : i < s.modules.size) (h : Alters i calls s s')
    (hbare : (s'.module i).bare = (s.module i).bare) (hsound : s'.Sound) :
    Stage s₀ s' ∧ Extends s s' := by
  have hspares : Spares (fun _ => False) (fun _ => False) s s' := h.spares not_false
  have hall : ∀ j, (s'.module j).bare = (s.module j).bare := by
    intro j
    by_cases hj : j = i
    · rw [hj, hbare]
    · rw [h.others j hj]
  have hextends : Extends s s' :=
    ⟨h.modules_size.ge, hspares.isLeaf, fun id _ => h.library id, fun _ _ p _ => hall p.2⟩
  refine ⟨hs.next hextends hspares hsound (hs.regular.of_alters h (hspares.inScope ?_))
    fun id hid hid' => ?_, hextends⟩
  · show s.InScope (s'.module i).bare.scope
    rw [hbare]
    exact hs.regular.scopes i hi
  · rw [IsCompiled, h.library] at hid'
    exact absurd hid' hid

/-- Without plugins, all that is done for a module is to search for what it needs. -/
theorem ends_applyPluginsWith_finishes (hcompile : Dependable s₀ depth compile) (hs : Stage s₀ s)
    (hi : s.Stays i) {libraries : Table Text LibraryId}
    (hlibraries : s.librariesOf (s.module i).scope = libraries) :
    Ends (fun _ s' => Stage s₀ s' ∧ ∃ s₁ found, Proceeds s₀ s s₁ ∧
        (Search.start (s.module i).declarations libraries).Finishes s₁ found ∧
          Extends s₁ s' ∧ Alters i [] s₁ s' ∧ (s'.module i).bare = (s.module i).bare)
      (fun s' => (Stage s₀ s' ∧ Frame s s') ∧ ∀ t found, Sustained s₀ t →
        (Search.start (s.module i).declarations libraries).Succeeds t found → depth ≤ s.missing t)
      (applyPluginsWith (reachWith compile) i s) := by
  unfold applyPluginsWith
  apply ends_bind.2
  apply ends_get.2
  subst hlibraries
  have hheld := Search.held_start hi (fun _ hd => hd)
    (hs.regular.librariesOf (hs.regular.scopes i hi.1))
  refine ((ends_reachWith_finishes hcompile hs hheld).mono (fun found s₁ => ?_)
    fun _ h => h) |> ends_bind.2
  rintro ⟨h₁, hfinishes⟩
  rw [hs.sound.pluginsOf (hs.sound.plain i)]
  apply ends_bind.2
  apply ends_modify.2
  have hs₁ := h₁.stage.sound
  have hi₁ := (hi.frame h₁.frame).1
  let f : Module → Module := fun m =>
    { m with surroundings := some (.of m.path m.declarations m.imports found) }
  have halters : Alters i [] s₁ { s₁ with modules := s₁.modules.modify i f } :=
    s₁.alters_changeModule (fun _ => rfl) (fun _ => rfl) fun _ => rfl
  have hbare : (Store.module { s₁ with modules := s₁.modules.modify i f } i).bare =
      (s₁.module i).bare := by
    rw [module_modify, if_pos ⟨rfl, hi₁⟩]
    rfl
  obtain ⟨hstage, hextends⟩ := h₁.stage.alters hi₁ halters hbare
    (hs₁.changeModule rfl (hs₁.numbered i) (hs₁.unused_self i) (hs₁.plain i))
  exact ⟨hstage, s₁, found, h₁, hfinishes, hextends, halters,
    hbare.trans (congrArg Module.bare (hi.module_eq h₁.frame))⟩

/-! ### Making them -/

/-- A library is populated once its modules are made. -/
theorem Store.Stage.populate {scope : Scope} {work : Work} (hs₀ : s₀.Fresh) (hs : Stage s₀ s)
    (hid : ¬ s.IsCompiled id) (h₁ : Spares (fun j => j ≠ id) (fun _ => True) s s₁)
    (hcompiled : s₁.IsCompiled id) (husable : (s₁.library id).definition ≠ .unusable)
    (howner : scope.owner = .library id)
    (hmaking : s₁.Making id scope (s₁.library id).leaves work s') (hsound : s'.Sound) :
    Stage s₀ s' ∧ Frame s s' ∧ s'.IsCompiled id ∧
      ∀ p ∈ (s'.library id).modules, ¬ s.IsFree p.2 → s.modules.size ≤ p.2 := by
  have hspares : Spares (fun j => j ≠ id) (fun j => ¬ s.IsLeaf id j) s s' :=
    (h₁.mono (by simp) (by simp)).trans (h₁.isLeaf ▸ hmaking.spares)
  have hframe : Frame s s' := hspares.frame hid
  have hsince : Spares (fun _ => False) (fun _ => False) s s' :=
    hspares.mono (fun _ h => h.elim) fun _ _ h => h.elim
  have hsince₀ := hs.since.trans hsince
  have hcompiled' : s'.IsCompiled id := by
    rw [IsCompiled, hmaking.library]
    exact hcompiled
  have hnew : ∀ w ∈ work, s₀.IsLeaf id w.1 ∨ s.modules.size ≤ w.1 := by
    intro w hw
    refine (hmaking.isLeaf_or_new (List.Subset.refl _) w hw).imp (fun hleaf => ?_)
      h₁.modules_size.trans
    rw [← hs.since.isLeaf, ← h₁.isLeaf]
    exact hleaf
  have hoccupies : ∀ leaf ∈ (s'.library id).leaves, ∀ w ∈ work, s'.Fills leaf w.1 →
      Occupies s₀ s' id leaf w.1 := by
    intro leaf hleaf w hw hfills
    obtain ⟨hscope, hread⟩ := hmaking.read w hw
    rw [h₁.plugins, hs.sound.plugins] at hread
    refine ⟨hfills, ?_, fun id' hne hleaf' => ?_, hscope ▸ howner, w.2, hread⟩
    · rcases hfills.source with hcode | hbuilt
      · rw [hcode]
        rfl
      · have hlt : w.1 < s₀.modules.size := by
          refine hs₀.prepared.built id w.1 ⟨leaf.1, ?_⟩
          rw [← hsince₀.leaves id, ← hbuilt]
          exact hleaf
        rw [hbuilt, hsince₀.source w.1 hlt]
        rfl
    · rw [hsince₀.isLeaf] at hleaf'
      rcases hnew w hw with hleaf | hsize
      · exact hne (hs₀.separate id id' w.1 hleaf hleaf')
      · exact (hs₀.prepared.built id' w.1 hleaf').not_ge (hs.since.modules_size.trans hsize)
  have hpopulated : Populated s₀ s' id := by
    have hleaves : (s'.library id).leaves = (s₁.library id).leaves := hmaking.spares.leaves id
    refine ⟨?_, work.map Prod.fst, ?_, ?_⟩
    · rw [hmaking.library]
      exact husable
    · rw [hleaves, hmaking.library]
    · rw [List.forall₂_map_right_iff]
      have hfills := hleaves.symm ▸ hmaking.fills
      refine List.forall₂_iff_get.2 ⟨hfills.length_eq, fun n hn hn' => ?_⟩
      exact hoccupies _ (List.getElem_mem hn) _ (List.getElem_mem hn')
        ((List.forall₂_iff_get.1 hfills).2 n hn hn')
  refine ⟨hs.next (hs.extends hframe) hsince hsound hmaking.regular fun j hj hj' => ?_, hframe,
    hcompiled', fun p hp hfree => ?_⟩
  · by_cases hne : j = id
    · exact hne ▸ hpopulated
    · rw [IsCompiled, hspares.libraries j hne] at hj'
      exact absurd hj' hj
  · rw [hmaking.library] at hp
    obtain ⟨w, hw, heq⟩ := List.mem_map.1 (List.of_mem_zip hp).2
    rw [← heq] at hfree ⊢
    refine (hnew w hw).resolve_left fun hleaf => hfree ⟨id, hid, ?_⟩
    rw [hs.since.isLeaf]
    exact hleaf

/-- What could not be compiled is left without modules, and all else as it was. -/
theorem Store.Stage.reset (hs : Stage s₀ s) (hid : ¬ s.IsCompiled id)
    (hlt : id < s.libraries.size) (hframe : Frame s s₁) (hsound : s₁.Sound) (hregular : s₁.Regular)
    (hpopulated : ∀ j, j ≠ id → s₁.IsCompiled j → Populated s₀ s₁ j)
    (h : s' = { s₁ with libraries := s₁.libraries.modify id fun l =>
      { l with modules := [], isCompiled := false } }) : Stage s₀ s' ∧ Frame s s' := by
  have hspares : Spares (fun j => j ≠ id) (fun _ => True) s₁ s' := by
    rw [h]
    exact spares_changeLibrary (by simp) rfl
  have hframe' : Frame s s' := by
    refine Spares.trans hframe (hspares.mono (fun j hj => ?_) fun _ _ _ => trivial)
    rintro rfl
    exact hid hj
  have hsince : Spares (fun _ => False) (fun _ => False) s s' :=
    hframe'.mono (fun _ h => h.elim) fun _ _ h => h.elim
  refine ⟨hs.next (hs.extends hframe') hsince ?_ ?_ fun j hj hj' => ?_, hframe'⟩
  · rw [h]
    exact hsound.changeLibrary rfl rfl (hsound.named id) (fun _ hk => hk)
      (fun p hp => absurd hp List.not_mem_nil) fun _ _ => rfl
  · rw [h]
    exact hregular.changeLibrary rfl fun _ _ => rfl
  · by_cases hne : j = id
    · subst hne
      rw [h, IsCompiled, library_modify, if_pos ⟨rfl, hframe.size ▸ hlt⟩] at hj'
      cases hj'
    · have hlibrary := hspares.libraries j hne
      have hj₁ : s₁.IsCompiled j := by
        rw [IsCompiled, ← hlibrary]
        exact hj'
      refine (hpopulated j hne hj₁).of_bare hlibrary (fun p _ => ?_) hspares.modules_size
        hspares.isLeaf
      rw [h]
      rfl

/-! ### Going through them -/

/-- What holds while the modules of a library are gone through: the first ones have found what they
need, and so have those of all libraries that were compiled for this. -/
structure Store.Attending (s₀ s s₁ : Store) (id : LibraryId) (done : List (Text × ModuleId))
    (s' : Store) : Prop where
  stage : Stage s₀ s'
  frame : Frame s s'
  since : Extends s₁ s'
  finishes : ∀ p ∈ done, ∃ found, Search.Finishes s'
    (Search.start (s₁.module p.2).declarations (s₁.library id).dependencies) found
  sustains : ∀ j, j ≠ id → ¬ s.IsCompiled j → s'.IsCompiled j → s'.Sustains j

/-- A module finds what it needs if its library sustains itself in some stage. -/
theorem Store.Stage.succeeds {t : Store} (hs : Stage s₀ s) (hid : s.IsCompiled id)
    {p : Text × ModuleId} (hp : p ∈ (s.library id).modules) (ht : Sustained s₀ t)
    (hid' : t.IsCompiled id) : ∃ found,
      (Search.start (s.module p.2).declarations (s.library id).dependencies).Succeeds t found := by
  obtain ⟨q, hq, hcontent⟩ := hs.exists_counterpart ht.toStage hid hid' hp
  obtain ⟨found, hfinishes⟩ := (ht.sustains id hid').finishes q hq
  have hsame : (t.module q.2).declarations.map unstamped =
      (s.module p.2).declarations.map unstamped := congrArg Module.declarations hcontent
  rw [Search.start_congr hsame, Library.dependencies_of_bare (hs.bare_eq ht.toStage id)]
    at hfinishes
  exact ⟨found, _, fun d hd => absurd hd List.not_mem_nil, ⟨rfl, rfl, rfl⟩, hfinishes⟩

theorem Store.Attending.librariesOf {done : List (Text × ModuleId)}
    (h : Attending s₀ s s₁ id done s') (hid : s₁.IsCompiled id) {p : Text × ModuleId}
    (hp : p ∈ (s₁.library id).modules) :
    s'.librariesOf (s'.module p.2).scope = (s₁.library id).dependencies := by
  rw [← h.since.library id hid] at hp ⊢
  obtain ⟨leaf, -, -, ho⟩ :=
    (h.stage.populated id (h.since.isCompiled hid)).exists_occupies hp
  rw [Store.librariesOf, ho.owner]

/-- The modules of a library are gone through once they are made. -/
theorem ends_applyModules (hcompile : Dependable s₀ depth compile) (hs₁ : Stage s₀ s₁)
    (hframe : Frame s s₁) (hid : ¬ s.IsCompiled id) (hid₁ : s₁.IsCompiled id)
    (hold : ∀ j, j ≠ id → s₁.IsCompiled j → s.IsCompiled j)
    (hfree : ∀ p ∈ (s₁.library id).modules, ¬ s.IsFree p.2 → s.modules.size ≤ p.2) :
    Ends (fun _ s' => Proceeds s₀ s s' ∧ s'.IsCompiled id)
      (fun s' => (Stage s₀ s' ∧ Frame s s') ∧
        ∀ t, Sustained s₀ t → t.IsCompiled id → depth ≤ s₁.missing t)
      ((s₁.library id).modules.values.forM (applyPluginsWith (reachWith compile)) s₁) := by
  have hstart : Attending s₀ s s₁ id [] s₁ :=
    ⟨hs₁, hframe, .refl s₁, fun p hp => absurd hp List.not_mem_nil,
      fun j hne hj hj₁ => absurd (hold j hne hj₁) hj⟩
  refine (ends_forM_rest (I := fun rest s' => ∃ done todo, rest = todo.map Prod.snd ∧
    (s₁.library id).modules = done ++ todo ∧ Attending s₀ s s₁ id done s') ?_
      ⟨[], (s₁.library id).modules, rfl, rfl, hstart⟩).imp fun _ s' => ?_
  · rintro i rest s₂ ⟨done, todo, hrest, hmodules, h⟩
    cases todo with
    | nil => cases hrest
    | cons p todo =>
      obtain ⟨rfl, rfl⟩ := List.cons.inj hrest
      have hp : p ∈ (s₁.library id).modules := by simp [hmodules]
      have hid₂ : s₂.IsCompiled id := h.since.isCompiled hid₁
      have hlibrary : s₂.library id = s₁.library id := h.since.library id hid₁
      have hp₂ : p ∈ (s₂.library id).modules := hlibrary.symm ▸ hp
      have hdeclarations : (s₂.module p.2).declarations = (s₁.module p.2).declarations :=
        Module.declarations_of_bare (h.since.modules id hid₁ p hp)
      refine (ends_applyPluginsWith_finishes hcompile h.stage (h.stage.stays hid₂ hp₂)
        (h.librariesOf hid₁ hp)).mono (fun _ s₄ => ?_) fun s₃ => ?_
      · rintro ⟨hs₄, s₃, found, hproceeds, hfinishes, hextends, halters, -⟩
        have hextends₃ : Extends s₂ s₃ := h.stage.extends hproceeds.frame
        have hextends₄ := hextends₃.trans hextends
        refine ⟨done ++ [p], todo, rfl, by simp [hmodules], hs₄, ?_, h.since.trans hextends₄,
          fun q hq => ?_, fun j hne hj hj₄ => ?_⟩
        · exact (h.frame.trans hproceeds.frame).alters halters (hfree p hp)
        · rcases List.mem_append.1 hq with hq | hq
          · obtain ⟨found', hfinishes'⟩ := h.finishes q hq
            exact ⟨found', hfinishes'.extends hextends₄⟩
          · obtain rfl := List.mem_singleton.1 hq
            rw [← hdeclarations]
            exact ⟨found, hfinishes.extends hextends⟩
        · rw [IsCompiled, halters.library] at hj₄
          by_cases hj₂ : s₂.IsCompiled j
          · exact (h.sustains j hne hj hj₂).extends hextends₄
          · exact (hproceeds.sustains j hj₂ hj₄).extends hextends
      · rintro ⟨⟨hs₃, hframe₃⟩, hmissing⟩
        refine ⟨⟨hs₃, h.frame.trans hframe₃⟩, fun t ht hid' => ?_⟩
        obtain ⟨found, hsucceeds⟩ := h.stage.succeeds hid₂ hp₂ ht hid'
        rw [hlibrary] at hsucceeds
        exact (hmissing t found ht hsucceeds).trans
          (missing_le t fun j hj => h.since.isCompiled hj)
  · rintro ⟨done, todo, hrest, hmodules, h⟩
    rw [eq_comm, List.map_eq_nil_iff] at hrest
    subst hrest
    rw [List.append_nil] at hmodules
    have hid' := h.since.isCompiled hid₁
    refine ⟨⟨h.stage, h.frame, fun j hj hj' => ?_⟩, hid'⟩
    by_cases hne : j = id
    · subst hne
      refine ⟨hid', fun p hp => ?_⟩
      rw [h.since.library j hid₁] at hp ⊢
      rw [Module.declarations_of_bare (h.since.modules j hid₁ p hp)]
      exact h.finishes p (hmodules ▸ hp)
    · exact h.sustains j hne hj hj'

end Modules

/-! ## Compiling -/

section Compile

variable {s₀ s s₁ : Store} {depth : Nat} {id : LibraryId} {compile : LibraryId → LinkM Unit}

/-- What is done once a library counts as compiled. -/
theorem ends_compileModules_sustains (hs₀ : s₀.Fresh) (hcompile : Dependable s₀ depth compile)
    (hs : Stage s₀ s) (hid : ¬ s.IsCompiled id) (hlt : id < s.libraries.size)
    (h₁ : Spares (fun j => j ≠ id) (fun _ => True) s s₁) (hsound : s₁.Sound) (hregular : s₁.Regular)
    (hcompiled : s₁.IsCompiled id) (hempty : (s₁.library id).modules = []) :
    Ends (fun _ s' => Proceeds s₀ s s' ∧ s'.IsCompiled id)
      (fun s' => (Frame s s' ∧ s'.Sound ∧ s'.Regular ∧
          ∀ j, j ≠ id → s'.IsCompiled j → Populated s₀ s' j) ∧
        ∀ t, Sustained s₀ t → t.IsCompiled id → depth + 1 ≤ s.missing t)
      ((do
        makeModules id
        let modules := ((← get).library id).modules.values
        modules.forM (applyPluginsWith (reachWith compile)) : LinkM Unit) s₁) := by
  have hopen : s₁.Open id (s₁.library id).name := ⟨rfl, fun _ => hcompiled⟩
  have hmake := (ends_makeModules_work hregular (h₁.size ▸ hlt) hcompiled hempty).and
    (ends_makeModules (P := False) (C := fun _ => False) hsound hopen False.elim)
  refine (hmake.mono (fun _ s₂ => ?_) fun s₂ => ?_) |> ends_bind.2
  · rintro ⟨⟨husable, scope, work, howner, hmaking⟩, hsound₂, -⟩
    obtain ⟨hs₂, hframe₂, hid₂, hfree⟩ :=
      hs.populate hs₀ hid h₁ hcompiled husable howner hmaking hsound₂
    apply ends_bind.2
    apply ends_get.2
    refine (ends_applyModules hcompile hs₂ hframe₂ hid hid₂ (fun j hne hj => ?_) hfree).mono
      (fun _ _ h => h) fun s₃ => ?_
    · rwa [IsCompiled, hmaking.spares.libraries j hne, h₁.libraries j hne] at hj
    · rintro ⟨⟨hs₃, hframe₃⟩, hmissing⟩
      refine ⟨⟨hframe₃, hs₃.sound, hs₃.regular, fun j _ hj => hs₃.populated j hj⟩,
        fun t ht hid' => (hmissing t ht hid').trans_lt ?_⟩
      refine missing_lt (fun j hj => hframe₂.isCompiled hj) ?_ hid' hid hid₂
      rw [ht.since.size, ← hs.since.size]
      exact hlt
  · rintro ⟨⟨hspares, hregular₂, -, hreason⟩, hsound₂⟩
    have hspares₂ : Spares (fun j => j ≠ id) (fun j => ¬ s.IsLeaf id j) s s₂ :=
      (h₁.mono (by simp) (by simp)).trans (h₁.isLeaf ▸ hspares)
    have hframe₂ : Frame s s₂ := hspares₂.frame hid
    refine ⟨⟨hframe₂, hsound₂, hregular₂, fun j hne hj => ?_⟩, fun t ht hid' => ?_⟩
    · rw [IsCompiled, hspares₂.libraries j hne] at hj
      exact (hs.populated j hj).extends hj (hs.extends hframe₂)
    · refine absurd ?_ (hreason (hsound.plugins id))
      exact (hs.canMake ht.toStage hs₀.prepared.toRegular hid').of_spares hs.regular h₁

theorem dependable_compileAt (hs₀ : s₀.Fresh) (depth : Nat) :
    Dependable s₀ depth (compileAt depth) := by
  induction depth with
  | zero => exact fun _ s hs _ => ⟨⟨hs, .refl _ _ s⟩, fun _ _ _ => Nat.zero_le _⟩
  | succ depth ih =>
    intro id s hs hlt
    unfold compileAt
    apply ends_bind.2
    apply ends_get.2
    by_cases hid : (s.library id).isCompiled = true
    · rw [if_pos hid]
      exact ⟨.refl hs, hid⟩
    rw [if_neg hid]
    apply ends_bind.2
    apply ends_modify.2
    apply ends_bind.2
    apply ends_modify.2
    let s₁ : Store :=
      { s with libraries := s.libraries.modify id fun l => { l with isCompiled := true } }
    let s₂ : Store := { s₁ with notices := s₁.notices ++ [.compiling (s.library id).name] }
    have hlibrary : s₁.library id = { s.library id with isCompiled := true } := by
      rw [library_modify, if_pos ⟨rfl, hlt⟩]
    have h₁ : Spares (fun j => j ≠ id) (fun _ => True) s s₁ := spares_changeLibrary (by simp) rfl
    have h₂ : Called [] s₁ s₂ := called_note _
    have hsound₁ : s₁.Sound := hs.sound.changeLibrary rfl rfl (hs.sound.named id)
      (fun _ hk => hk) (hs.sound.placed id) fun _ hc => Bool.noConfusion hc
    have hregular₁ : s₁.Regular := hs.regular.changeLibrary rfl fun _ h => absurd rfl h
    have hlibrary₂ : s₂.library id = { s.library id with isCompiled := true } :=
      (congrFun h₂.toQuiet.library id).trans hlibrary
    refine (ends_tryCatch (Q := fun _ s₃ => Proceeds s₀ s s₃ ∧ s₃.IsCompiled id) ?_).bind
      fun _ s₃ h₃ => ?_
    · refine (ends_compileModules_sustains hs₀ ih hs hid hlt (h₁.trans h₂.spares)
        (hsound₁.of_quiet h₂.toQuiet) (hregular₁.of_called h₂) ?_ ?_).mono (fun _ _ h => h)
          fun s₃ h₃ fault => ?_
      · rw [IsCompiled, hlibrary₂]
      · rw [hlibrary₂]
        exact hs.regular.idle id hid
      · obtain ⟨⟨hframe₃, hsound₃, hregular₃, hpopulated₃⟩, hmissing⟩ := h₃
        apply ends_bind.2
        apply ends_modify.2
        exact ⟨hs.reset hid hlt hframe₃ hsound₃ hregular₃ hpopulated₃ rfl, hmissing⟩
    · apply ends_bind.2
      apply ends_get.2
      apply ends_modify.2
      exact ⟨h₃.1.called (called_note _), h₃.2⟩

theorem dependable_compile (hs₀ : s₀.Fresh) :
    Dependable s₀ (s₀.libraries.size + 1) ShaderLink.compile := by
  intro id s hs hlt
  unfold ShaderLink.compile
  apply ends_bind.2
  apply ends_get.2
  rw [hs.since.size]
  exact dependable_compileAt hs₀ _ id s hs hlt

end Compile

end ShaderLink
