import ShaderLink.Proofs.Populating

/-!
# Compiling is atomic

Compiling a library either completes it, and all libraries that are needed for that, or leaves it
without modules; the other libraries that it completed on the way stay so (`Atomic`).  Plugins work
on the modules one after the other, and for each of them further libraries may be compiled; the
invariant of this is `Store.Applying`.  `atomic_compileAt` holds for every depth, since what happens
inside can be told by the contract at a smaller depth.
-/

namespace ShaderLink

open Store LinkM

/-- Libraries were compiled, each to the end, and no other calls were made than for these. -/
def Store.Grows (s s' : Store) : Prop := ∃ done, Tallies (fun _ => False) s s' done [] []

/-- Libraries were compiled, each to the end, or were interrupted, and no other calls were made than
for these. -/
def Store.Rests (s s' : Store) : Prop :=
  ∃ done broken, Tallies (fun _ => False) s s' done broken []

/-- Compiling ends with the library compiled, or with a fault and without it. -/
def Atomic (compile : LibraryId → LinkM Unit) : Prop :=
  ∀ id (s : Store), s.Regular → id < s.libraries.size →
    Ends (fun _ s' => s.Grows s' ∧ s'.IsCompiled id)
      (fun s' => s.Rests s' ∧ (¬ s.IsCompiled id → ¬ s'.IsCompiled id)) (compile id s)

namespace Store

variable {s s' s'' : Store}

theorem Grows.refl (hs : s.Regular) : s.Grows s := ⟨[], .refl hs⟩

theorem Grows.rests (h : s.Grows s') : s.Rests s' := by
  obtain ⟨done, h⟩ := h
  exact ⟨done, [], h⟩

theorem Grows.trans (h : s.Grows s') (h' : s'.Grows s'') : s.Grows s'' := by
  obtain ⟨done, h⟩ := h
  obtain ⟨done', h'⟩ := h'
  exact ⟨_, h.trans (fun _ h => h.elim) h'⟩

theorem Grows.trans_rests (h : s.Grows s') (h' : s'.Rests s'') : s.Rests s'' := by
  obtain ⟨done, h⟩ := h
  obtain ⟨done', broken, h'⟩ := h'
  exact ⟨_, broken, h.trans (fun _ h => h.elim) h'⟩

theorem Grows.called (h : s.Grows s') (h' : Called [] s' s'') : s.Grows s'' := by
  obtain ⟨done, h⟩ := h
  exact ⟨done, h.called h'⟩

theorem Rests.called (h : s.Rests s') (h' : Called [] s' s'') : s.Rests s'' := by
  obtain ⟨done, broken, h⟩ := h
  exact ⟨done, broken, h.called h'⟩

theorem Rests.regular (h : s.Rests s') : s'.Regular := by
  obtain ⟨done, broken, h⟩ := h
  exact h.regular

theorem Rests.frame (h : s.Rests s') : Frame s s' := by
  obtain ⟨done, broken, h⟩ := h
  exact h.frame

end Store

/-! ## Searching -/

section Reach

variable {compile : LibraryId → LinkM Unit} {s : Store}

theorem ends_reachWith_grows (hcompile : Atomic compile) (hs : s.Regular)
    {libraries : Table Text LibraryId} (hlibraries : s.InRange libraries)
    (roots : List Declaration) :
    Ends (fun _ s' => s.Grows s') s.Rests (reachWith compile roots libraries s) := by
  unfold reachWith
  apply ends_bind.2
  apply ends_get.2
  refine ends_explore (I := fun st r => s.Grows st ∧ ∀ p ∈ r.pending, s.InRange p.libraries)
    ?_ ?_ (fun _ _ h _ => h.1) (fun _ _ h => h.1.rests) ?_
  · rintro st r r' ⟨hst, hrange⟩ hr
    have hstepped := Search.stepped st r
    rw [hr] at hstepped
    refine ⟨hst, ?_⟩
    cases hstepped with
    | dropped hpending =>
      intro q hq
      exact hrange q (hpending ▸ List.mem_cons_of_mem _ hq)
    | followed hpending =>
      intro q hq
      rcases List.mem_append.1 hq with hq | hq
      · obtain ⟨d, -, t, -, rfl⟩ := Search.mem_references.1 hq
        have hframe := hst.rests.frame
        rw [hframe.dependencies]
        exact hs.dependencies _
      · exact hrange q (hpending ▸ List.mem_cons_of_mem _ hq)
  · rintro st r id ⟨hst, hrange⟩ hr
    have hstepped := Search.stepped st r
    rw [hr] at hstepped
    cases hstepped with
    | needs hpending hlibrary hcompiled =>
      rename_i p rest
      have hid : id < s.libraries.size := hrange p (hpending ▸ List.mem_cons_self) _
        (Table.mem_of_get?_eq_some (Pending.library_eq_ok_iff.1 hlibrary).2)
      refine (hcompile id st hst.rests.regular (hst.rests.frame.size ▸ hid)).mono
        (fun _ st' h => ⟨hst.trans h.1, hrange⟩) fun st' h => hst.trans_rests h.1
  · refine ⟨.refl hs, fun q hq => ?_⟩
    obtain ⟨d, -, t, -, rfl⟩ := Search.mem_references.1 hq
    exact hlibraries

end Reach

/-! ## Applying plugins -/

/-- Replacing one element of the second list by another that is related to the same one. -/
theorem forall₂_exchange {α β : Type} {R : α → β → Prop} {as : List α} {l r : List β} {b b' : β}
    (h : List.Forall₂ R as (l ++ b :: r)) (hb : ∀ a, R a b → R a b') :
    List.Forall₂ R as (l ++ b' :: r) := by
  induction l generalizing as with
  | nil =>
    cases h with
    | cons hab hrest => exact .cons (hb _ hab) hrest
  | cons c l ih =>
    cases h with
    | cons hac hrest => exact .cons hac (ih hrest)

/-- What is known of the module that was made for a leaf, and of the calls that were made for it. -/
structure Store.Holds (s₀ s : Store) (id : LibraryId) (leaf : Text × Source)
    (w : ModuleId × Calls) : Prop where
  fills : s.Fills leaf w.1
  new : leaf.2 = .built w.1 ∨ s₀.modules.size ≤ w.1
  tries : s.Tries id (s₀.library id).plugins leaf w.2

/-- What holds while plugins are applied to the modules of a library: they have worked on the first
ones, and the others are read. -/
structure Store.Applying (s₀ : Store) (id : LibraryId) (finished todo : Work) (s : Store) :
    Prop where
  tallies : ∃ done, Tallies (fun j => j = id) s₀ s done [] (Work.calls (finished ++ todo))
  compiled : s.IsCompiled id
  modules : (s.library id).modules =
    ((s.library id).leaves.map Prod.fst).zip ((finished ++ todo).map Prod.fst)
  holds : List.Forall₂ (s₀.Holds s id) (s.library id).leaves (finished ++ todo)
  finished : ∀ w ∈ finished, s.Unshared id w.1 → (s.module w.1).scope.owner = .library id ∧
    (s.module w.1).WorkedOn (s₀.library id).plugins w.2
  todo : ∀ w ∈ todo, w.2.Reads (s₀.library id).plugins ∧ (s.Unshared id w.1 →
    (s.module w.1).scope.owner = .library id ∧
      (s.module w.1).ReadWith (s₀.library id).plugins w.2)

/-- One pass over a module: it is read with the plugins of the library, and then the plugins of its
scope work on it. -/
theorem Store.Tries.of_applies {s : Store} {id : LibraryId} {plugins plugins' : List Plugin}
    {leaf : Text × Source} {read applied : Calls} (hread : read.Reads plugins)
    (happlied : applied.Applies plugins' leaf.1)
    (hsame : (∀ i, leaf.2 = .built i → s.Unshared id i) → plugins' = plugins) :
    s.Tries id plugins leaf (read ++ applied) where
  preprocessed := by
    rw [Calls.preprocessed_append, happlied.preprocessed, List.append_nil]
    exact hread.preprocessed
  path x hx := by
    rw [Calls.transformed_append, hread.transformed] at hx
    obtain ⟨p, -, rfl⟩ := List.mem_map.1 (happlied.transformed.subset hx)
    rfl
  transformed hunshared := by
    rw [Calls.transformed_append, hread.transformed, ← hsame hunshared]
    exact happlied.transformed

namespace Store.Applying

variable {s₀ s s₁ s' : Store} {id : LibraryId} {finished rest : Work}
  {w : ModuleId × Calls} {calls : Calls} {found : List Declaration}

theorem frame (h : s₀.Applying id finished rest s) : Frame s₀ s := by
  obtain ⟨done, htallies⟩ := h.tallies
  exact htallies.frame

theorem regular (h : s₀.Applying id finished rest s) : s.Regular := by
  obtain ⟨done, htallies⟩ := h.tallies
  exact htallies.regular

theorem lt_size (h : s₀.Applying id finished rest s) {v : ModuleId × Calls}
    (hv : v ∈ finished ++ rest) : v.1 < s.modules.size := by
  obtain ⟨leaf, -, hholds⟩ := exists_of_forall₂_right h.holds hv
  exact hholds.fills.lt_size

/-- Different leaves have different modules. -/
theorem nodup (h : s₀.Applying id finished rest s) : ((finished ++ rest).map Prod.fst).Nodup := by
  have hfills : List.Forall₂ s.Fills (s.library id).leaves
      ((finished ++ rest).map Prod.fst) := by
    rw [List.forall₂_map_right_iff]
    exact h.holds.imp fun _ _ hholds => hholds.fills
  exact nodup_of_forall₂_fills hfills (h.regular.distinct id)

/-- While a module is searched for what it needs, the modules of the library stay as they are. -/
theorem module_eq (h : s₀.Applying id finished rest s) (hgrows : Frame s s₁)
    {v : ModuleId × Calls} (hv : v ∈ finished ++ rest) (hunshared : s.Unshared id v.1) :
    s₁.module v.1 = s.module v.1 :=
  hgrows.module_of_unshared h.compiled (h.lt_size hv) hunshared

/-- A module that was made for the library is its own. -/
theorem unshared_of_size_le (h : s₀.Applying id finished rest s) (hs₀ : s₀.Regular)
    {i : ModuleId} (hi : s₀.modules.size ≤ i) : s.Unshared id i := by
  intro j _ hj
  exact (hs₀.built j i (h.frame.isLeaf ▸ hj)).not_ge hi

/-- Changing a module of the library touches no library that was compiled meanwhile. -/
theorem alters (h : s₀.Applying id finished (w :: rest) s) (hs₀ : s₀.Regular)
    (hid : ¬ s₀.IsCompiled id) {done done' : Ledger}
    (hsettles : Settles (fun j => j = id) s₀ s done)
    (hsettles' : Settles (fun _ => False) s s₁ done') (ha : Alters w.1 calls s₁ s')
    (hscope : (s'.module w.1).scope = (s₁.module w.1).scope) :
    Settles (fun j => j = id) s₀ s' (done ++ done') := by
  have hw : w ∈ finished ++ w :: rest := List.mem_append_right _ List.mem_cons_self
  have hlt : w.1 < s₁.modules.size := (h.lt_size hw).trans_le hsettles'.frame.modules_size
  have hs₁ : Settles (fun j => j = id) s₀ s₁ (done ++ done') :=
    hsettles.trans (fun j hj => hj ▸ h.compiled) hsettles'
  have hspares : Spares (fun _ => True) (fun j => j ≠ w.1) s₁ s' := ha.spares (by simp)
  obtain ⟨leaf, hleaf, hholds⟩ := exists_of_forall₂_right h.holds hw
  have hnew : s₀.IsLeaf id w.1 ∨ s₀.modules.size ≤ w.1 := by
    refine hholds.new.imp_left fun hbuilt => ⟨leaf.1, ?_⟩
    rw [← hbuilt, ← h.frame.leaves]
    exact hleaf
  refine hs₁.alters ha (hnew.imp_left fun hleaf => ⟨id, hid, hleaf⟩)
    (hscope ▸ hspares.inScope (hs₁.regular.scopes w.1 hlt)) fun e he hunshared howner => ?_
  have hne : e.1 ≠ id := ((hs₁.mem_iff e.1).1 (List.mem_map_of_mem he)).1
  rcases hnew with hleaf | hsize
  · exact hunshared id hne.symm (hs₁.frame.isLeaf ▸ hleaf)
  · have hown := h.unshared_of_size_le hs₀ hsize
    rw [h.module_eq hsettles'.frame hw hown, ((h.todo w List.mem_cons_self).2 hown).1] at howner
    exact hne (Owner.library.inj howner).symm

/-- What was done for the library if plugins have worked on one more module, to the end or not. -/
theorem charge (h : s₀.Applying id finished (w :: rest) s) (hs₀ : s₀.Regular)
    (hid : ¬ s₀.IsCompiled id) (hgrows : s.Grows s₁) (ha : Alters w.1 calls s₁ s')
    (hscope : (s'.module w.1).scope = (s₁.module w.1).scope)
    (happlies : calls.Applies (s.pluginsOf (s.module w.1).scope) (s₁.module w.1).path) :
    (∃ done, Tallies (fun j => j = id) s₀ s' done []
      (Work.calls (finished ++ (w.1, w.2 ++ calls) :: rest))) ∧
    List.Forall₂ (s₀.Holds s' id) (s.library id).leaves
      (finished ++ (w.1, w.2 ++ calls) :: rest) := by
  have hw : w ∈ finished ++ w :: rest := List.mem_append_right _ List.mem_cons_self
  obtain ⟨done, htallies⟩ := h.tallies
  obtain ⟨done', htallies'⟩ := hgrows
  have hframe₁ := htallies'.frame
  have hspares : Spares (fun _ => True) (fun j => j ≠ w.1) s₁ s' := ha.spares (by simp)
  refine ⟨⟨done ++ done', ?_⟩, ?_⟩
  · have hcompiled : s'.IsCompiled = s₁.IsCompiled := by
      funext j
      rw [IsCompiled, IsCompiled, hspares.libraries j trivial]
    have hstep := (htallies.trans (fun j hj => hj ▸ h.compiled) htallies').step
      (h.alters hs₀ hid htallies.toSettles htallies'.toSettles ha hscope) hcompiled ha.calls_eq
    refine { hstep with calls := ?_ }
    obtain ⟨new, hcalls, hperm⟩ := hstep.calls
    refine ⟨new, hcalls, hperm.trans (List.Perm.append_left _ ?_)⟩
    classical
    refine List.perm_iff_count.2 fun call => ?_
    simp only [Work.calls, List.flatMap_append, List.flatMap_cons, List.count_append,
      List.append_nil]
    omega
  · have hholds : List.Forall₂ (s₀.Holds s' id) (s.library id).leaves (finished ++ w :: rest) :=
      h.holds.imp fun _ _ hv => ⟨(hv.fills.of_spares hframe₁).of_spares hspares, hv.new,
        (hv.tries.of_spares hframe₁).of_spares hspares⟩
    refine forall₂_exchange hholds fun leaf hv => ⟨hv.fills, hv.new, ?_⟩
    have hpath : (s₁.module w.1).path = leaf.1 := ha.path ▸ hv.fills.path
    refine .of_applies (h.todo w List.mem_cons_self).1 (hpath ▸ happlies) fun hunshared => ?_
    have hown : s.Unshared id w.1 := by
      rcases hv.new with hbuilt | hsize
      · have hunshared' := hunshared w.1 hbuilt
        rwa [hspares.unshared, hframe₁.unshared] at hunshared'
      · exact h.unshared_of_size_le hs₀ hsize
    rw [pluginsOf, ((h.todo w List.mem_cons_self).2 hown).1]
    exact htallies.frame.plugins id

theorem apply (h : s₀.Applying id finished (w :: rest) s) (hs₀ : s₀.Regular)
    (hid : ¬ s₀.IsCompiled id) (hgrows : s.Grows s₁) (ha : Alters w.1 calls s₁ s')
    (happlied : (s₁.module w.1).AppliedTo (s.pluginsOf (s.module w.1).scope) found calls
      (s'.module w.1)) :
    s₀.Applying id (finished ++ [(w.1, w.2 ++ calls)]) rest s' := by
  have hw : w ∈ finished ++ w :: rest := List.mem_append_right _ List.mem_cons_self
  have hscope : (s'.module w.1).scope = (s₁.module w.1).scope := happlied.kept.2.2
  have hframe₁ := hgrows.rests.frame
  have hspares : Spares (fun _ => True) (fun j => j ≠ w.1) s₁ s' := ha.spares (by simp)
  have hlibrary : s'.library id = s.library id :=
    (hspares.libraries id trivial).trans (hframe₁.libraries id h.compiled)
  have hunshared' : s'.Unshared = s.Unshared := hspares.unshared.trans hframe₁.unshared
  obtain ⟨htallies, hholds⟩ := h.charge hs₀ hid hgrows ha hscope happlied.applies
  -- the other modules of the library stay as they are
  have hother : ∀ v ∈ finished ++ w :: rest, v.1 ≠ w.1 → s.Unshared id v.1 →
      s'.module v.1 = s.module v.1 := by
    intro v hv hne hunshared
    exact (ha.others v.1 hne).trans (h.module_eq hframe₁ hv hunshared)
  have hnodup := h.nodup
  rw [List.map_append, List.map_cons, List.nodup_append] at hnodup
  rw [List.append_cons] at htallies hholds
  refine ⟨htallies, ?_, ?_, ?_, fun v hv hunshared => ?_, fun v hv => ?_⟩
  · rw [IsCompiled, hlibrary]
    exact h.compiled
  · rw [hlibrary, h.modules]
    simp
  · rw [hlibrary]
    exact hholds
  · rw [hunshared'] at hunshared
    rcases List.mem_append.1 hv with hv | hv
    · have hmem : v.1 ∈ finished.map Prod.fst := List.mem_map_of_mem hv
      rw [hother v (List.mem_append_left _ hv) (fun heq =>
        hnodup.2.2 _ hmem _ List.mem_cons_self heq) hunshared]
      exact h.finished v hv hunshared
    · obtain rfl := List.mem_singleton.1 hv
      obtain ⟨howner, hread⟩ := (h.todo w List.mem_cons_self).2 hunshared
      have hm₁ := h.module_eq hframe₁ hw hunshared
      refine ⟨by rw [hscope, hm₁, howner], s₁.module w.1, found, w.2, calls, ?_, ?_, rfl⟩
      · exact hm₁ ▸ hread
      · rw [pluginsOf, howner] at happlied
        exact h.frame.plugins id ▸ happlied
  · obtain ⟨hreads, htodo⟩ := h.todo v (List.mem_cons_of_mem _ hv)
    refine ⟨hreads, fun hunshared => ?_⟩
    rw [hunshared'] at hunshared
    have hmem : v.1 ∈ rest.map Prod.fst := List.mem_map_of_mem hv
    have hne : v.1 ≠ w.1 := by
      rintro heq
      exact (List.nodup_cons.1 hnodup.2.1).1 (heq ▸ hmem)
    rw [hother v (List.mem_append_right _ (List.mem_cons_of_mem _ hv)) hne hunshared]
    exact htodo hunshared

/-- What was done for the library so far is not more than one pass over each of its leaves. -/
theorem attempts (h : List.Forall₂ (s₀.Holds s id) (s.library id).leaves finished)
    (hframe : Frame s₀ s) : s₀.Attempts id (finished.map Prod.snd) := by
  refine Attempts.of_spares ⟨_, List.prefix_rfl, ?_⟩ hframe
  rw [List.forall₂_map_right_iff]
  refine h.imp fun _ _ hholds => ?_
  rw [hframe.plugins]
  exact hholds.tries

end Store.Applying

/-- The library is completed once plugins have been applied to all of its modules. -/
theorem Store.Applying.finish {s₀ s : Store} {id : LibraryId} {finished : Work}
    (h : s₀.Applying id finished [] s) (hid : ¬ s₀.IsCompiled id) : s₀.Grows s := by
  obtain ⟨done, htallies⟩ := h.tallies
  have hholds := h.holds
  have hmodules := h.modules
  rw [List.append_nil] at htallies hholds hmodules
  have hplugins : (s.library id).plugins = (s₀.library id).plugins := h.frame.plugins id
  have hcomplete : s.Complete id (s.library id).plugins finished := by
    refine ⟨h.compiled, hmodules, hholds.imp fun _ _ hw => hw.fills, ?_, ?_⟩
    · rw [hplugins]
      exact hholds.imp fun _ _ hw => hw.tries
    · rw [hplugins]
      exact h.finished
  have hnot : id ∉ done.map Prod.fst := fun hmem => ((htallies.mem_iff id).1 hmem).1 rfl
  refine ⟨done ++ [(id, finished)], ⟨htallies.frame, htallies.regular, ?_, fun j => ?_,
    fun e he => ?_⟩, fun e he => absurd he List.not_mem_nil, List.nodup_nil, ?_⟩
  · rw [List.map_append, List.nodup_append]
    refine ⟨htallies.distinct, List.pairwise_singleton _ _, ?_⟩
    rintro j hj _ hmem rfl
    obtain rfl := List.mem_singleton.1 hmem
    exact hnot hj
  · rw [List.map_append, List.mem_append, htallies.mem_iff]
    simp only [List.map_cons, List.map_nil, List.mem_singleton]
    by_cases hj : j = id
    · subst hj
      simp [hid, h.compiled]
    · simp [hj]
  · rcases List.mem_append.1 he with he | he
    · exact htallies.complete e he
    · obtain rfl := List.mem_singleton.1 he
      exact hcomplete
  · obtain ⟨new, hcalls, hperm⟩ := htallies.calls
    refine ⟨new, hcalls, hperm.trans ?_⟩
    rw [Ledger.calls_append]
    simp [Ledger.calls, Tried.calls]

/-- A library that could not be compiled is left without modules. -/
theorem Store.Tallies.reset {s₀ s : Store} {id : LibraryId} {done : Ledger} {broken : Tried}
    {tries : List Calls} (h : Tallies (fun j => j = id) s₀ s done broken tries.flatten)
    (hid : ¬ s₀.IsCompiled id) (hlt : id < s₀.libraries.size) (htries : s₀.Attempts id tries)
    (hbroken : ∀ e ∈ broken, e.1 ≠ id) :
    Tallies (fun _ => False) s₀ { s with libraries := s.libraries.modify id fun l =>
      { l with modules := [], isCompiled := false } } done ((id, tries) :: broken) [] := by
  let s' : Store := { s with libraries := s.libraries.modify id fun l =>
    { l with modules := [], isCompiled := false } }
  have hspares : Spares (fun j => j ≠ id) (fun _ => True) s s' :=
    spares_changeLibrary (by simp) rfl
  have hlibrary : s'.library id = { s.library id with modules := [], isCompiled := false } := by
    rw [library_modify, if_pos ⟨rfl, h.frame.size ▸ hlt⟩]
  have hnot : ¬ s'.IsCompiled id := by simp [IsCompiled, hlibrary]
  refine ⟨⟨?_, h.regular.changeLibrary rfl fun _ _ => rfl, h.distinct, fun j => ?_,
    fun e he => ?_⟩, ?_, ?_, ?_⟩
  · refine Spares.trans h.frame (hspares.mono (fun j hj => ?_) fun _ _ _ => trivial)
    rintro rfl
    exact hid hj
  · rw [h.mem_iff]
    by_cases hj : j = id
    · subst hj
      simp only [not_true_eq_false, false_and, not_false_eq_true, true_and, false_iff, not_and]
      exact fun _ => hnot
    · rw [IsCompiled, IsCompiled, IsCompiled, hspares.libraries j hj]
      simp [hj]
  · have hne : e.1 ≠ id := ((h.mem_iff e.1).1 (List.mem_map_of_mem he)).1
    rw [hspares.plugins]
    exact (h.complete e he).of_spares hspares hne fun _ _ _ => trivial
  · refine List.forall_mem_cons.2 ⟨⟨hnot, htries⟩, fun e he => ⟨?_, (h.interrupted e he).2⟩⟩
    rw [IsCompiled, hspares.libraries e.1 (hbroken e he)]
    exact (h.interrupted e he).1
  · rw [List.map_cons, List.nodup_cons]
    refine ⟨fun hmem => ?_, h.apart⟩
    obtain ⟨e, he, heq⟩ := List.mem_map.1 hmem
    exact hbroken e he heq
  · obtain ⟨new, hcalls, hperm⟩ := h.calls
    refine ⟨new, hcalls, hperm.trans ?_⟩
    rw [List.append_nil, List.append_assoc]
    exact List.Perm.append_left _ List.perm_append_comm

/-! ## Compiling -/

section Compile

variable {compile : LibraryId → LinkM Unit} {s₀ s₁ : Store} {id : LibraryId}

/-- The modules that were made for a library are ready for plugins. -/
theorem Store.Making.applying {s : Store} {scope : Scope} {work : Work}
    (h₁ : Spares (fun j => j ≠ id) (fun _ => True) s₀ s₁) (hcalls : s₁.calls = s₀.calls)
    (hid : ¬ s₀.IsCompiled id) (hcompiled : s₁.IsCompiled id) (howner : scope.owner = .library id)
    (h : s₁.Making id scope (s₁.library id).leaves work s) : s₀.Applying id [] work s := by
  have hspares : Spares (fun j => j ≠ id) (fun j => ¬ s₀.IsLeaf id j) s₀ s :=
    (h₁.mono (by simp) (by simp)).trans (h₁.isLeaf ▸ h.spares)
  have hframe : Frame s₀ s := hspares.frame hid
  have hleaves : (s.library id).leaves = (s₁.library id).leaves := h.spares.leaves id
  have hread : ∀ w ∈ work, (s.module w.1).scope.owner = .library id ∧
      (s.module w.1).ReadWith (s₀.library id).plugins w.2 := by
    intro w hw
    obtain ⟨hscope, hread⟩ := h.read w hw
    rw [hscope, ← h₁.plugins]
    exact ⟨howner, hread⟩
  refine ⟨⟨[], .of_same hframe h.regular (fun j hj hc => ?_) (by rw [h.calls_eq, hcalls]; rfl)⟩,
    ?_, ?_, ?_, fun w hw _ => absurd hw List.not_mem_nil,
    fun w hw => ⟨(hread w hw).2.reads, fun _ => hread w hw⟩⟩
  · rwa [IsCompiled, hspares.libraries j hj] at hc
  · rw [IsCompiled, h.library]
    exact hcompiled
  · rw [hleaves, h.library]
    rfl
  · rw [hleaves, List.nil_append]
    have htries := h.attempts
    rw [List.forall₂_map_right_iff] at htries
    have hmade := h.fills.mp (fun _ _ => And.intro) h.new
    exact hmade.mp (fun leaf w hw htry => ⟨hw.1, hw.2.imp_right h₁.modules_size.trans,
      h₁.plugins id ▸ htry.of_spares h.spares⟩) htries

/-- The library was given up: this is all that was done for others, and for its first leaves. -/
def Store.GivesUp (s₀ : Store) (id : LibraryId) (s : Store) : Prop :=
  ∃ done broken tries, s₀.Attempts id tries ∧ (∀ e ∈ broken, e.1 ≠ id) ∧
    Tallies (fun j => j = id) s₀ s done broken tries.flatten

namespace Store.Applying

variable {s s' s₂ : Store} {finished todo : Work} {w : ModuleId × Calls} {calls : Calls}

/-- A library is given up if something that a module needs cannot be compiled. -/
theorem givesUp_of_rests (h : s₀.Applying id finished todo s) (h' : s.Rests s') :
    s₀.GivesUp id s' := by
  obtain ⟨done, htallies⟩ := h.tallies
  obtain ⟨done', broken, htallies'⟩ := h'
  rw [Work.calls_eq_flatten] at htallies
  have hall := htallies.trans (fun j hj => hj ▸ h.compiled) htallies'
  rw [List.append_nil] at hall
  refine ⟨_, broken, _, attempts h.holds h.frame, fun e he => ?_, hall⟩
  rintro rfl
  exact (hall.interrupted e he).1 (htallies'.frame.isCompiled h.compiled)

/-- A library is given up if a plugin fails. -/
theorem givesUp_of_applies (h : s₀.Applying id finished (w :: todo) s) (hs₀ : s₀.Regular)
    (hid : ¬ s₀.IsCompiled id) (hgrows : s.Grows s') (ha : Alters w.1 calls s' s₂)
    (hscope : (s₂.module w.1).scope = (s'.module w.1).scope)
    (happlies : calls.Applies (s.pluginsOf (s.module w.1).scope) (s'.module w.1).path) :
    s₀.GivesUp id s₂ := by
  obtain ⟨⟨done, htallies⟩, hholds⟩ := h.charge hs₀ hid hgrows ha hscope happlies
  rw [Work.calls_eq_flatten] at htallies
  refine ⟨done, [], _, attempts ?_ htallies.frame, nofun, htallies⟩
  rw [htallies.frame.leaves, ← h.frame.leaves]
  exact hholds

/-- Plugins work on the next module. -/
theorem ends_applyPluginsWith (hcompile : Atomic compile) (hs₀ : s₀.Regular)
    (hid : ¬ s₀.IsCompiled id) (h : s₀.Applying id finished (w :: todo) s) :
    Ends (fun _ s' => ∃ finished, s₀.Applying id finished todo s') (s₀.GivesUp id)
      (applyPluginsWith (reachWith compile) w.1 s) := by
  have hlt := h.lt_size (List.mem_append_right _ List.mem_cons_self)
  have hreach := ends_reachWith_grows hcompile h.regular
    (h.regular.librariesOf (h.regular.scopes w.1 hlt)) (s.module w.1).declarations
  refine (ends_applyTo hreach fun _ s₃ h₃ =>
    hlt.trans_le h₃.rests.frame.modules_size).mono (fun _ s₃ => ?_) fun s₃ => ?_
  · rintro ⟨found, s₄, calls, hgrows, ha, happlied⟩
    exact ⟨_, h.apply hs₀ hid hgrows ha happlied⟩
  · rintro (h' | ⟨found, s₄, hgrows, calls, happlies, ha, hscope⟩)
    · exact h.givesUp_of_rests h'
    · exact h.givesUp_of_applies hs₀ hid hgrows ha hscope happlies

/-- Plugins work on all modules. -/
theorem ends_forM (hcompile : Atomic compile) (hs₀ : s₀.Regular) (hid : ¬ s₀.IsCompiled id)
    (h : s₀.Applying id finished todo s) :
    Ends (fun _ s' => ∃ finished, s₀.Applying id finished [] s') (s₀.GivesUp id)
      ((todo.map Prod.fst).forM (applyPluginsWith (reachWith compile)) s) := by
  refine (ends_forM_rest (I := fun rest s' => ∃ finished todo, rest = todo.map Prod.fst ∧
    s₀.Applying id finished todo s') ?_ ⟨finished, todo, rfl, h⟩).imp fun _ s' => ?_
  · rintro i rest s' ⟨finished, todo, hrest, h⟩
    cases todo with
    | nil => cases hrest
    | cons w todo =>
      obtain ⟨rfl, rfl⟩ := List.cons.inj hrest
      refine (h.ends_applyPluginsWith hcompile hs₀ hid).imp fun _ s₃ => ?_
      rintro ⟨finished, h⟩
      exact ⟨finished, todo, rfl, h⟩
  · rintro ⟨finished, todo, hrest, h⟩
    rw [eq_comm, List.map_eq_nil_iff] at hrest
    exact ⟨finished, hrest ▸ h⟩

end Store.Applying

/-- A library is given up if its modules cannot be made. -/
theorem Store.Misfills.givesUp {s : Store} (h : s₁.Misfills id s)
    (h₁ : Spares (fun j => j ≠ id) (fun _ => True) s₀ s₁) (hid : ¬ s₀.IsCompiled id)
    (hcalls : s₁.calls = s₀.calls) : s₀.GivesUp id s := by
  obtain ⟨tries, htries, hattempts⟩ := h.attempts
  have hspares : Spares (fun j => j ≠ id) (fun j => ¬ s₀.IsLeaf id j) s₀ s :=
    (h₁.mono (by simp) (by simp)).trans (h₁.isLeaf ▸ h.spares)
  refine ⟨[], [], tries, hattempts.of_spares h₁, nofun, .of_same (hspares.frame hid) h.regular
    (fun j hj hc => ?_) (by rw [htries, hcalls])⟩
  rwa [IsCompiled, hspares.libraries j hj] at hc

/-- What is done once a library counts as compiled: making its modules, and applying plugins to
them. -/
theorem ends_compileModules_applying (hcompile : Atomic compile) (hs₀ : s₀.Regular)
    (hid : ¬ s₀.IsCompiled id) (hlt : id < s₀.libraries.size)
    (h₁ : Spares (fun j => j ≠ id) (fun _ => True) s₀ s₁) (hs₁ : s₁.Regular)
    (hcalls : s₁.calls = s₀.calls) (hcompiled : s₁.IsCompiled id)
    (hempty : (s₁.library id).modules = []) :
    Ends (fun _ s => ∃ finished, s₀.Applying id finished [] s) (s₀.GivesUp id)
      ((do
        makeModules id
        let modules := ((← get).library id).modules.values
        modules.forM (applyPluginsWith (reachWith compile)) : LinkM Unit) s₁) := by
  refine ((ends_makeModules_work hs₁ (h₁.size ▸ hlt) hcompiled hempty).mono (fun _ s₂ => ?_)
    fun s₂ h => h.givesUp h₁ hid hcalls) |> ends_bind.2
  rintro ⟨-, scope, work, howner, hmaking⟩
  have hvalues : (s₂.library id).modules.values = work.map Prod.fst := by
    rw [hmaking.library]
    exact List.map_snd_zip (by simp [hmaking.fills.length_eq])
  apply ends_bind.2
  apply ends_get.2
  rw [hvalues]
  exact (hmaking.applying h₁ hcalls hid hcompiled howner).ends_forM hcompile hs₀ hid

theorem atomic_compileAt (depth : Nat) : Atomic (compileAt depth) := by
  induction depth with
  | zero => exact fun _ _ hs _ => ⟨(Grows.refl hs).rests, id⟩
  | succ depth ih =>
    intro id s hs hlt
    unfold compileAt
    apply ends_bind.2
    apply ends_get.2
    by_cases hid : (s.library id).isCompiled = true
    · rw [if_pos hid]
      exact ⟨.refl hs, hid⟩
    rw [if_neg hid]
    apply ends_bind.2
    apply ends_modify.2
    apply ends_bind.2
    apply ends_modify.2
    let s₁ : Store :=
      { s with libraries := s.libraries.modify id fun l => { l with isCompiled := true } }
    let s₂ : Store := { s₁ with notices := s₁.notices ++ [.compiling (s.library id).name] }
    have hlibrary : s₁.library id = { s.library id with isCompiled := true } := by
      rw [library_modify, if_pos ⟨rfl, hlt⟩]
    have h₁ : Spares (fun j => j ≠ id) (fun _ => True) s s₁ := spares_changeLibrary (by simp) rfl
    have h₂ : Called [] s₁ s₂ := called_note _
    have hs₁ : s₁.Regular := hs.changeLibrary rfl fun _ h => absurd rfl h
    have hlibrary₂ : s₂.library id = { s.library id with isCompiled := true } :=
      (congrFun h₂.toQuiet.library id).trans hlibrary
    refine (ends_tryCatch (Q := fun _ s₃ => ∃ finished, s.Applying id finished [] s₃)
      ?_).bind fun _ s₃ h₃ => ?_
    · refine (ends_compileModules_applying ih hs hid hlt (h₁.trans h₂.spares) (hs₁.of_called h₂) rfl
        ?_ ?_).mono (fun _ _ h => h) fun s₃ h₃ fault => ?_
      · rw [IsCompiled, hlibrary₂]
      · rw [hlibrary₂]
        exact hs.idle id hid
      · obtain ⟨done, broken, tries, htries, hbroken, htallies⟩ := h₃
        apply ends_bind.2
        apply ends_modify.2
        refine ⟨⟨done, _, htallies.reset hid hlt htries hbroken⟩, fun _ => ?_⟩
        rw [IsCompiled, library_modify, if_pos ⟨rfl, htallies.frame.size ▸ hlt⟩]
        exact Bool.false_ne_true
    · obtain ⟨finished, h₃⟩ := h₃
      apply ends_bind.2
      apply ends_get.2
      apply ends_modify.2
      exact ⟨(h₃.finish hid).called (called_note _), h₃.compiled⟩

end Compile

end ShaderLink
