import ShaderLink.Proofs.Stages
import ShaderLink.Proofs.Visiting

/-!
# Searches that finish

A search finishes in a store if it goes to its end there without asking for a library
(`Search.Finishes`); then it does so, with the same result, in all stores that extend this one.  If
a search finishes in one stage of the libraries, the same search in another stage takes the same
steps, up to the numbers of what it finds, as long as it does not ask for a library, and asks for
none but those that are compiled in the first one (`Search.Succeeds.step`).
-/

namespace ShaderLink

open Store

namespace Search

section Steps

variable {s s' : Store} {r r' : Search} {p : Pending} {rest : List Pending} {id : LibraryId}
  {ds : List Declaration}

/-! ## What decides a step -/

theorem step_dropped (hpending : r.pending = p :: rest) (hseen : p.reference.id ∈ r.seen)
    (hcheck : p.reference.origin = .imported → ∃ id ds, Leads s p id ds) :
    r.step s = .moved { r with pending := rest } := by
  have hknown : r.seen.contains p.reference.id = true := List.contains_iff_mem.2 hseen
  unfold step
  rw [hpending]
  dsimp only
  rw [hknown]
  cases horigin : p.reference.origin with
  | ambient => rfl
  | imported =>
    obtain ⟨id, ds, hlibrary, hcompiled, hlookup⟩ := hcheck horigin
    rw [horigin] at hlookup
    simp [hlibrary, hcompiled, hlookup]

theorem step_followed (hpending : r.pending = p :: rest) (hnew : p.reference.id ∉ r.seen)
    (hleads : Leads s p id ds) :
    r.step s = .moved
      { found := ds.foldl addFound r.found
        seen := p.reference.id :: r.seen
        pending := references ds (s.library id).dependencies ++ rest } := by
  obtain ⟨hlibrary, hcompiled, hlookup⟩ := hleads
  have hunknown : r.seen.contains p.reference.id = false := by simpa using hnew
  unfold step
  rw [hpending]
  dsimp only
  rw [hunknown]
  simp [hlibrary, hcompiled, hlookup]

theorem step_needs (hpending : r.pending = p :: rest)
    (hnew : p.reference.origin = .ambient → p.reference.id ∉ r.seen)
    (hlibrary : p.library = .ok id) (hcompiled : ¬ s.IsCompiled id) : r.step s = .needs id r := by
  have hkept : (r.seen.contains p.reference.id && p.reference.origin == .ambient) = false := by
    cases horigin : p.reference.origin with
    | imported => exact Bool.and_false _
    | ambient => simpa using hnew horigin
  have hcompiled : (s.library id).isCompiled = false := Bool.eq_false_iff.2 hcompiled
  unfold step
  rw [hpending]
  dsimp only
  rw [hkept]
  simp [hlibrary, hcompiled]

/-! ## Stores that extend each other -/

theorem Leads.extends (h : Leads s p id ds) (he : Extends s s') : Leads s' p id ds := by
  obtain ⟨hlibrary, hcompiled, hlookup⟩ := h
  have hsame : s'.library id = s.library id := he.library id hcompiled
  refine ⟨hlibrary, hsame.symm ▸ hcompiled, ?_⟩
  rw [hsame, ← hlookup, Store.lookup, Store.lookup]
  cases hget : (s.library id).modules.get? p.reference.path with
  | none => rfl
  | some i =>
    have hbare := he.modules id hcompiled _ (Table.mem_of_get?_eq_some hget)
    show (s'.module i).bare.lookup _ _ _ = (s.module i).bare.lookup _ _ _
    rw [hbare]

/-- A step that needs no library is the same in a store that extends this one. -/
theorem step_extends (h : r.step s = .moved r') (he : Extends s s') : r.step s' = .moved r' := by
  have hstepped := stepped s r
  rw [h] at hstepped
  cases hstepped with
  | dropped hpending hseen hcheck =>
    refine step_dropped hpending hseen fun horigin => ?_
    obtain ⟨id, ds, hleads⟩ := hcheck horigin
    exact ⟨id, ds, hleads.extends he⟩
  | followed hpending hnew hleads =>
    rw [step_followed hpending hnew (hleads.extends he), he.library _ hleads.compiled]

/-- The search goes to its end without asking for a library. -/
inductive Finishes (s : Store) : Search → List Declaration → Prop where
  | done {r : Search} (h : r.pending = []) : Finishes s r r.found
  | moved {r r' : Search} {found : List Declaration} (h : r.step s = .moved r')
      (h' : Finishes s r' found) : Finishes s r found

theorem Finishes.extends {found : List Declaration} (h : Finishes s r found)
    (he : Extends s s') : Finishes s' r found := by
  induction h with
  | done h => exact .done h
  | moved h _ ih => exact .moved (step_extends h he) ih

end Steps

/-! ## What a search holds -/

section Hold

variable {s₀ s s' : Store} {r r' : Search} {p : Pending} {id : LibraryId} {ds : List Declaration}

/-- What a reference leads to stands in a module of the library, under the id of the reference. -/
theorem Leads.exists_module (hs : s.Sound) (h : Leads s p id ds) :
    ∃ q ∈ (s.library id).modules, ds.Sublist (s.module q.2).declarations ∧
      ∀ d ∈ ds, d.id = p.reference.id := by
  obtain ⟨-, i, hi, hlookup⟩ := leads_iff.1 h
  obtain ⟨-, -, rfl⟩ := lookup_eq_ok_iff.1 hlookup
  refine ⟨_, Table.mem_of_get?_eq_some hi.module, List.filter_sublist, fun d hd => ?_⟩
  obtain ⟨hd, hname⟩ := List.mem_filter.1 hd
  exact hi.id_eq hs hd (beq_iff_eq.1 hname)

/-- What was found stands in some module, and its id was seen. -/
def Kept (s : Store) (r : Search) : Prop :=
  ∀ d ∈ r.found, d.id ∈ r.seen ∧ ∃ i, d ∈ (s.module i).declarations

theorem foldl_addFound_eq_append {found : List Declaration}
    (hnew : ∀ d ∈ ds, ∀ e ∈ found, e.serial ≠ d.serial) (hds : (ds.map (·.serial)).Nodup) :
    ds.foldl addFound found = found ++ ds := by
  induction ds generalizing found with
  | nil => exact (List.append_nil found).symm
  | cons d ds ih =>
    obtain ⟨hd, hds⟩ := List.nodup_cons.1 hds
    have hadd : addFound found d = found ++ [d] := by
      refine if_neg fun hany => ?_
      obtain ⟨e, he, hserial⟩ := List.any_eq_true.1 hany
      exact hnew d List.mem_cons_self e he (beq_iff_eq.1 hserial)
    rw [List.foldl_cons, hadd, ih (fun c hc e he => ?_) hds, List.append_assoc]
    · rfl
    · rcases List.mem_append.1 he with he | he
      · exact hnew c (List.mem_cons_of_mem _ hc) e he
      · obtain rfl := List.mem_singleton.1 he
        exact fun hserial => hd (List.mem_map.2 ⟨c, hc, hserial.symm⟩)

/-- All that a new reference leads to is found for the first time. -/
theorem Kept.foldl_addFound (hs : s.Sound) (h : Kept s r) (hnew : p.reference.id ∉ r.seen)
    (hleads : Leads s p id ds) : ds.foldl addFound r.found = r.found ++ ds := by
  obtain ⟨q, -, hsub, hid⟩ := hleads.exists_module hs
  refine foldl_addFound_eq_append (fun d hd e he hserial => ?_)
    ((hs.numbered q.2).distinct.sublist (hsub.map _))
  obtain ⟨hseen, i, hi⟩ := h e he
  obtain rfl := hs.eq_of_serial hi (hsub.subset hd) hserial
  exact hnew (hid e hd ▸ hseen)

theorem Kept.moved (hs : s.Sound) (h : Kept s r) (hmoved : r.step s = .moved r') :
    Kept s r' := by
  have hstepped := stepped s r
  rw [hmoved] at hstepped
  cases hstepped with
  | dropped => exact h
  | followed hpending hnew hleads =>
    obtain ⟨q, -, hsub, hid⟩ := hleads.exists_module hs
    intro d hd
    dsimp only at hd ⊢
    rw [h.foldl_addFound hs hnew hleads] at hd
    rcases List.mem_append.1 hd with hd | hd
    · exact ⟨List.mem_cons_of_mem _ (h d hd).1, (h d hd).2⟩
    · exact ⟨hid d hd ▸ List.mem_cons_self, q.2, hsub.subset hd⟩

/-- A search finds nothing under the ids that it has seen before. -/
theorem Finishes.new {found : List Declaration} (hs : s.Sound) (hr : Kept s r)
    (h : Finishes s r found) :
    ∀ d ∈ found, d ∈ r.found ∨ d.id ∉ r.seen ∧ ∃ i, d ∈ (s.module i).declarations := by
  induction h with
  | done => exact fun d hd => Or.inl hd
  | @moved r r' found hmoved _ ih =>
    have hall := ih (hr.moved hs hmoved)
    have hstepped := stepped s r
    rw [hmoved] at hstepped
    cases hstepped with
    | dropped => exact hall
    | followed hpending hnew hleads =>
      obtain ⟨q, -, hsub, hid⟩ := hleads.exists_module hs
      intro d hd
      rcases hall d hd with hd | ⟨hseen, hi⟩
      · dsimp only at hd
        rw [hr.foldl_addFound hs hnew hleads] at hd
        rcases List.mem_append.1 hd with hd | hd
        · exact Or.inl hd
        · exact Or.inr ⟨hid d hd ▸ hnew, q.2, hsub.subset hd⟩
      · exact Or.inr ⟨fun hmem => hseen (List.mem_cons_of_mem _ hmem), hi⟩

end Hold

/-! ## One search in two stages -/

/-- The searches differ in nothing but the numbers of what they have found. -/
structure Alike (r q : Search) : Prop where
  found : q.found.map unstamped = r.found.map unstamped
  seen : q.seen = r.seen
  pending : q.pending = r.pending

/-- A search like this one finishes in the store `t`. -/
def Succeeds (t : Store) (r : Search) (found : List Declaration) : Prop :=
  ∃ q, Kept t q ∧ Alike r q ∧ Finishes t q found

/-- What a step can give if a search like this one goes on with `q` in the store `t`. -/
def Result.Follows (t : Store) (q : Search) : Result → Prop
  | .needs id _ => t.IsCompiled id
  | .moved r => Alike r q
  | .finished _ | .failed _ => False

/-- What a step can give if a search like this one finishes in the store `t`. -/
def Result.Fits (t : Store) (found : List Declaration) : Result → Prop
  | .needs id _ => t.IsCompiled id
  | .moved r => Succeeds t r found
  | .finished found' => found'.map unstamped = found.map unstamped
  | .failed _ => False

section Stages

variable {s₀ s t : Store} {r r' : Search} {p : Pending} {id : LibraryId}
  {ds found found' : List Declaration}

/-- A reference leads to the same declarations, but for their numbers, whenever the library is
compiled. -/
theorem Leads.exists_leads (hs : Stage s₀ s) (ht : Stage s₀ t) (h : Leads t p id ds)
    (hid : s.IsCompiled id) : ∃ ds', Leads s p id ds' ∧ ds'.map unstamped = ds.map unstamped := by
  obtain ⟨hlibrary, hcompiled, hlookup⟩ := h
  have heq := hs.lookup_eq ht hid hcompiled p.reference.path p.reference.name p.reference.origin
    p.user
  rw [hlookup] at heq
  cases hlookup' : s.lookup (s.library id) p.reference.path p.reference.name p.reference.origin
      p.user with
  | error fault =>
    rw [hlookup'] at heq
    cases heq
  | ok ds' =>
    rw [hlookup'] at heq
    exact ⟨ds', ⟨hlibrary, hid, hlookup'⟩, (Except.ok.inj heq).symm⟩

theorem references_congr {ds' : List Declaration} (h : ds'.map unstamped = ds.map unstamped)
    (libraries : Table Text LibraryId) : references ds' libraries = references ds libraries :=
  congrArg Search.pending (start_congr h libraries)

/-- A step does what happens in the other stage, or it asks for a library that is compiled
there. -/
theorem Alike.step {q q' : Search} (h : Alike r q) (hs : Stage s₀ s) (ht : Stage s₀ t)
    (hr : Kept s r) (hq : Kept t q) (hmoved : q.step t = .moved q') :
    (r.step s).Follows t q' := by
  have hstepped := stepped t q
  rw [hmoved] at hstepped
  cases hstepped with
  | @dropped p rest hpending hseen hcheck =>
    rw [h.pending] at hpending
    rw [h.seen] at hseen
    have hnext : Result.Follows t { q with pending := rest } (.moved { r with pending := rest }) :=
      ⟨h.found, h.seen, rfl⟩
    cases horigin : p.reference.origin with
    | ambient =>
      rw [step_dropped hpending hseen fun himported => nomatch horigin.symm.trans himported]
      exact hnext
    | imported =>
      obtain ⟨id, ds, hleads⟩ := hcheck horigin
      by_cases hid : s.IsCompiled id
      · obtain ⟨ds', hleads', -⟩ := hleads.exists_leads hs ht hid
        rw [step_dropped hpending hseen fun _ => ⟨id, ds', hleads'⟩]
        exact hnext
      · rw [step_needs hpending (fun hambient => nomatch horigin.symm.trans hambient)
          hleads.library hid]
        exact hleads.compiled
  | @followed p rest id ds hpending hnew hleads =>
    rw [h.pending] at hpending
    have hnew' : p.reference.id ∉ r.seen := h.seen ▸ hnew
    by_cases hid : s.IsCompiled id
    · obtain ⟨ds', hleads', hds⟩ := hleads.exists_leads hs ht hid
      rw [step_followed hpending hnew' hleads']
      refine ⟨?_, ?_, ?_⟩
      · dsimp only
        rw [hq.foldl_addFound ht.sound hnew hleads, hr.foldl_addFound hs.sound hnew' hleads',
          List.map_append, List.map_append, h.found, hds]
      · dsimp only
        rw [h.seen]
      · dsimp only
        rw [← references_congr hds, Library.dependencies_of_bare (hs.bare_eq ht id)]
    · rw [step_needs hpending (fun _ => hnew') hleads.library hid]
      exact hleads.compiled

/-- A step does not fail if a search like this one finishes in another stage. -/
theorem Succeeds.step (hs : Stage s₀ s) (ht : Stage s₀ t) (hr : Kept s r)
    (h : Succeeds t r found) : (r.step s).Fits t found := by
  obtain ⟨q, hq, halike, hfinishes⟩ := h
  cases hfinishes with
  | done hpending =>
    rw [halike.pending] at hpending
    unfold Search.step
    rw [hpending]
    exact halike.found.symm
  | moved hmoved hfinishes =>
    have hfollows := halike.step hs ht hr hq hmoved
    revert hfollows
    cases r.step s with
    | needs id r' => exact fun hcompiled => hcompiled
    | moved r' => exact fun halike' => ⟨_, hq.moved ht.sound hmoved, halike', hfinishes⟩
    | finished found' => exact False.elim
    | failed fault => exact False.elim

/-- A search that finishes finds the same, up to numbers, as one like it in another stage. -/
theorem Finishes.found_eq (hs : Stage s₀ s) (ht : Stage s₀ t) (hr : Kept s r)
    (h : Finishes s r found') (h' : Succeeds t r found) :
    found'.map unstamped = found.map unstamped := by
  induction h with
  | @done r hpending =>
    have hfits := h'.step hs ht hr
    unfold Search.step at hfits
    rw [hpending] at hfits
    exact hfits
  | moved hmoved _ ih =>
    have hfits := h'.step hs ht hr
    rw [hmoved] at hfits
    exact ih (hr.moved hs.sound hmoved) hfits

/-- A search that finishes in one stage finishes in each in which no less is compiled. -/
theorem Succeeds.finishes (hs : Stage s₀ s) (ht : Stage s₀ t)
    (hcompiled : ∀ id, t.IsCompiled id → s.IsCompiled id) (hr : Kept s r)
    (h : Succeeds t r found) : ∃ found', Finishes s r found' := by
  obtain ⟨q, hq, halike, hfinishes⟩ := h
  induction hfinishes generalizing r with
  | done hpending => exact ⟨_, .done (halike.pending ▸ hpending)⟩
  | moved hmoved _ ih =>
    have hfollows := halike.step hs ht hr hq hmoved
    cases hstep : r.step s with
    | needs id r' =>
      rw [hstep] at hfollows
      have hstepped := stepped s r
      rw [hstep] at hstepped
      cases hstepped with
      | needs _ _ hid => exact absurd (hcompiled id hfollows) (by simp [IsCompiled, hid])
    | moved r' =>
      rw [hstep] at hfollows
      obtain ⟨found', hfinishes⟩ :=
        ih (hr.moved hs.sound hstep) (hq.moved ht.sound hmoved) hfollows
      exact ⟨found', .moved hstep hfinishes⟩
    | finished found' =>
      rw [hstep] at hfollows
      exact hfollows.elim
    | failed fault =>
      rw [hstep] at hfollows
      exact hfollows.elim

end Stages

/-! ## Searches for which libraries are compiled -/

/-- All that the search has found, and all that it has to follow, stands in modules that stay. -/
structure Held (s : Store) (r : Search) : Prop where
  inRange : ∀ p ∈ r.pending, s.InRange p.libraries
  pending : ∀ p ∈ r.pending, ∃ i, s.Stays i ∧
    ∃ d ∈ (s.module i).declarations, p.reference ∈ d.references
  found : ∀ d ∈ r.found, d.id ∈ r.seen ∧ ∃ i, s.Stays i ∧ d ∈ (s.module i).declarations

section Held

variable {s₀ s s' : Store} {r r' : Search} {i : ModuleId}

theorem held_start {roots : List Declaration} {libraries : Table Text LibraryId}
    (hi : s.Stays i) (hroots : ∀ d ∈ roots, d ∈ (s.module i).declarations)
    (hlibraries : s.InRange libraries) : Held s (start roots libraries) := by
  refine ⟨fun p hp => ?_, fun p hp => ?_, fun d hd => absurd hd List.not_mem_nil⟩
  all_goals obtain ⟨d, hd, x, hx, rfl⟩ := mem_references.1 hp
  · exact hlibraries
  · exact ⟨i, hi, d, hroots d hd, hx⟩

namespace Held

theorem kept (h : Held s r) : Kept s r := by
  intro d hd
  obtain ⟨hseen, i, -, hi⟩ := h.found d hd
  exact ⟨hseen, i, hi⟩

theorem frame (h : Held s r) (hframe : Frame s s') : Held s' r := by
  refine ⟨fun p hp => ?_, fun p hp => ?_, fun d hd => ?_⟩
  · rw [hframe.inRange]
    exact h.inRange p hp
  · obtain ⟨i, hi, d, hd, hx⟩ := h.pending p hp
    exact ⟨i, hi.frame hframe, d, hi.module_eq hframe ▸ hd, hx⟩
  · obtain ⟨hseen, i, hi, hd⟩ := h.found d hd
    exact ⟨hseen, i, hi.frame hframe, hi.module_eq hframe ▸ hd⟩

/-- Each step leaves less to be done. -/
theorem moved (hs : Stage s₀ s) (h : Held s r) (hmoved : r.step s = .moved r') :
    Held s r' ∧ remaining s r' < remaining s r := by
  have hstepped := stepped s r
  rw [hmoved] at hstepped
  cases hstepped with
  | dropped hpending =>
    have hmem : ∀ {q}, q ∈ _ → q ∈ r.pending := fun hq => hpending ▸ List.mem_cons_of_mem _ hq
    exact ⟨⟨fun q hq => h.inRange q (hmem hq), fun q hq => h.pending q (hmem hq), h.found⟩,
      remaining_dropped hpending⟩
  | @followed p rest id ds hpending hnew hleads =>
    have hmem : ∀ {q}, q ∈ rest → q ∈ r.pending := fun hq => hpending ▸ List.mem_cons_of_mem _ hq
    obtain ⟨q, hq, hsub, hid⟩ := hleads.exists_module hs.sound
    have hq := hs.stays hleads.compiled hq
    refine ⟨⟨fun x hx => ?_, fun x hx => ?_, fun d hd => ?_⟩, ?_⟩
    · rcases List.mem_append.1 hx with hx | hx
      · obtain ⟨d, -, y, -, rfl⟩ := mem_references.1 hx
        exact hs.regular.dependencies id
      · exact h.inRange x (hmem hx)
    · rcases List.mem_append.1 hx with hx | hx
      · obtain ⟨d, hd, y, hy, rfl⟩ := mem_references.1 hx
        exact ⟨q.2, hq, d, hsub.subset hd, hy⟩
      · exact h.pending x (hmem hx)
    · dsimp only at hd ⊢
      rw [h.kept.foldl_addFound hs.sound hnew hleads] at hd
      rcases List.mem_append.1 hd with hd | hd
      · exact ⟨List.mem_cons_of_mem _ (h.found d hd).1, (h.found d hd).2⟩
      · exact ⟨hid d hd ▸ List.mem_cons_self, q.2, hq, hsub.subset hd⟩
    · obtain ⟨j, -, d, hd, hx⟩ := h.pending p (hpending ▸ List.mem_cons_self)
      exact remaining_followed hpending hnew (mem_storedReferences hd hx) hsub

/-- A run goes on until the search ends or asks for a library. -/
theorem run (hs : Stage s₀ s) (h : Held s r) : ∃ r', Held s r' ∧
    (∀ s' found, Extends s s' → Finishes s' r' found → Finishes s' r found) ∧
    (∀ t found, Stage s₀ t → Succeeds t r found → Succeeds t r' found) ∧
    Search.run s (bound s r) r = r'.step s ∧ ∀ r'', r'.step s ≠ .moved r'' := by
  let I : Search → Prop := fun q => Held s q ∧
    (∀ s' found, Extends s s' → Finishes s' q found → Finishes s' r found) ∧
    ∀ t found, Stage s₀ t → Succeeds t r found → Succeeds t q found
  have hstep : ∀ q q', I q → q.step s = .moved q' → I q' ∧ remaining s q' < remaining s q := by
    rintro q q' ⟨hq, hfinishes, hsucceeds⟩ hmoved
    obtain ⟨hq', hless⟩ := hq.moved hs hmoved
    refine ⟨⟨hq', fun s' found he hf => ?_, fun t found ht hf => ?_⟩, hless⟩
    · exact hfinishes s' found he (.moved (step_extends hmoved he) hf)
    · have hfits := (hsucceeds t found ht hf).step hs ht hq.kept
      rw [hmoved] at hfits
      exact hfits
  obtain ⟨q, ⟨hq, hfinishes, hsucceeds⟩, hrun, hend⟩ :=
    run_ends hstep ⟨h, fun _ _ _ hf => hf, fun _ _ _ hf => hf⟩ (remaining_lt_bound s r)
  exact ⟨q, hq, hfinishes, hsucceeds, hrun, hend⟩

end Held

end Held

end Search

end ShaderLink
