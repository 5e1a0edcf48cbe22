import ShaderLink.Proofs.Keeping

/-!
# Exploring

What one step of a search can do (`Search.stepped`), and the rules that follow from it.  An
invariant of the steps, and of the compilations in between, holds at the end of an exploration
(`ends_explore`).  If each step also makes some number smaller, a run does not run out of fuel
(`Search.run_ends`).
-/

namespace ShaderLink

open Store LinkM

namespace Search

/-- A reference leads to these declarations in a library that is compiled. -/
structure Leads (store : Store) (p : Pending) (id : LibraryId) (ds : List Declaration) : Prop where
  library : p.library = .ok id
  compiled : (store.library id).isCompiled = true
  lookup : store.lookup (store.library id) p.reference.path p.reference.name p.reference.origin
    p.user = .ok ds

/-- A reference cannot be followed: there is no library for it, or nothing is found there. -/
inductive Breaks (store : Store) (p : Pending) : Fault → Prop where
  | library {fault : Fault} (h : p.library = .error fault) : Breaks store p fault
  | lookup {fault : Fault} {id : LibraryId} (hlibrary : p.library = .ok id)
      (hcompiled : (store.library id).isCompiled = true)
      (h : store.lookup (store.library id) p.reference.path p.reference.name p.reference.origin
        p.user = .error fault) : Breaks store p fault

/-- All that a step can do: to end, to drop a reference whose id was reached before, to follow one,
to ask for a library, or to fail.  An import is not dropped before it has been looked up. -/
inductive Stepped (store : Store) (s : Search) : Result → Prop where
  | finished (hpending : s.pending = []) : Stepped store s (.finished s.found)
  | dropped {p : Pending} {rest : List Pending} (hpending : s.pending = p :: rest)
      (hseen : p.reference.id ∈ s.seen)
      (hcheck : p.reference.origin = .imported → ∃ id ds, Leads store p id ds) :
      Stepped store s (.moved { s with pending := rest })
  | followed {p : Pending} {rest : List Pending} {id : LibraryId} {ds : List Declaration}
      (hpending : s.pending = p :: rest) (hseen : p.reference.id ∉ s.seen)
      (hleads : Leads store p id ds) :
      Stepped store s (.moved
        { found := ds.foldl addFound s.found
          seen := p.reference.id :: s.seen
          pending := references ds (store.library id).dependencies ++ rest })
  | needs {p : Pending} {rest : List Pending} {id : LibraryId} (hpending : s.pending = p :: rest)
      (hlibrary : p.library = .ok id) (hcompiled : (store.library id).isCompiled = false) :
      Stepped store s (.needs id s)
  | failed {p : Pending} {rest : List Pending} {fault : Fault} (hpending : s.pending = p :: rest)
      (hnew : p.reference.origin = .ambient → p.reference.id ∉ s.seen)
      (hbreaks : Breaks store p fault) : Stepped store s (.failed fault)

variable {store : Store} {s : Search}

theorem mem_references {ds : List Declaration} {libraries : Table Text LibraryId} {p : Pending} :
    p ∈ references ds libraries ↔ ∃ d ∈ ds, ∃ r ∈ d.references, ⟨r, d.id, libraries⟩ = p := by
  simp only [references, List.mem_reverse, List.mem_flatMap, List.mem_map]

theorem stepped (store : Store) (s : Search) : Stepped store s (s.step store) := by
  unfold step
  cases hpending : s.pending with
  | nil => exact .finished hpending
  | cons p rest =>
    dsimp only
    split
    · rename_i h
      obtain ⟨hseen, horigin⟩ := Bool.and_eq_true_iff.1 h
      refine .dropped hpending (List.contains_iff_mem.1 hseen) fun himported => ?_
      rw [beq_iff_eq.1 horigin] at himported
      cases himported
    · rename_i hdrop
      have hnew : p.reference.origin = .ambient → p.reference.id ∉ s.seen := by
        intro horigin hseen
        exact hdrop (Bool.and_eq_true_iff.2 ⟨List.contains_iff_mem.2 hseen, beq_iff_eq.2 horigin⟩)
      cases hlibrary : p.library with
      | error fault => exact .failed hpending hnew (.library hlibrary)
      | ok id =>
        dsimp only
        split
        · rename_i hcompiled
          exact .needs hpending hlibrary (by simpa using hcompiled)
        · rename_i hcompiled
          have hcompiled : (store.library id).isCompiled = true := by simpa using hcompiled
          cases hlookup : store.lookup (store.library id) p.reference.path p.reference.name
              p.reference.origin p.user with
          | error fault => exact .failed hpending hnew (.lookup hlibrary hcompiled hlookup)
          | ok ds =>
            have hleads : Leads store p id ds := ⟨hlibrary, hcompiled, hlookup⟩
            dsimp only
            split
            · rename_i hseen
              exact .dropped hpending (List.contains_iff_mem.1 hseen) fun _ => ⟨id, ds, hleads⟩
            · rename_i hseen
              exact .followed hpending (fun h => hseen (List.contains_iff_mem.2 h)) hleads

/-- A library is not asked for by the use of a name that was reached before, unless it is an
import. -/
theorem new_of_needs {s' : Search} {id : LibraryId} (h : s.step store = .needs id s')
    {p : Pending} {rest : List Pending} (hpending : s.pending = p :: rest)
    (horigin : p.reference.origin = .ambient) : p.reference.id ∉ s.seen := by
  intro hseen
  have hdropped : s.step store = .moved { s with pending := rest } := by
    unfold step
    rw [hpending]
    dsimp only
    rw [if_pos (Bool.and_eq_true_iff.2 ⟨List.contains_iff_mem.2 hseen, beq_iff_eq.2 horigin⟩)]
  rw [hdropped] at h
  cases h

/-- A run goes as far as some search that keeps to the invariant, unless it runs out of fuel. -/
theorem run_eq_step {I : Search → Prop} (step : ∀ s s', I s → s.step store = .moved s' → I s')
    (fuel : Nat) (hs : I s) :
    (∃ s', I s' ∧ run store fuel s = s'.step store) ∨ ∃ s', run store fuel s = .moved s' := by
  induction fuel generalizing s with
  | zero => exact Or.inr ⟨s, rfl⟩
  | succ fuel ih =>
    unfold run
    cases h : s.step store with
    | moved s' => exact ih (step s s' hs h)
    | finished found => exact Or.inl ⟨s, hs, h.symm⟩
    | failed fault => exact Or.inl ⟨s, hs, h.symm⟩
    | needs id s' => exact Or.inl ⟨s, hs, h.symm⟩

/-- If each step makes `measure` smaller, a run with more fuel than that ends by itself. -/
theorem run_ends {I : Search → Prop} {measure : Search → Nat}
    (step : ∀ s s', I s → s.step store = .moved s' → I s' ∧ measure s' < measure s)
    {fuel : Nat} (hs : I s) (hfuel : measure s < fuel) :
    ∃ s', I s' ∧ run store fuel s = s'.step store ∧ ∀ s'', s'.step store ≠ .moved s'' := by
  induction fuel generalizing s with
  | zero => exact absurd hfuel (Nat.not_lt_zero _)
  | succ fuel ih =>
    unfold run
    cases h : s.step store with
    | moved s' =>
      obtain ⟨hs', hless⟩ := step s s' hs h
      exact ih hs' (hless.trans_le (Nat.lt_succ_iff.1 hfuel))
    | finished found => exact ⟨s, hs, h.symm, fun s'' h' => by rw [h] at h'; cases h'⟩
    | failed fault => exact ⟨s, hs, h.symm, fun s'' h' => by rw [h] at h'; cases h'⟩
    | needs id s' => exact ⟨s, hs, h.symm, fun s'' h' => by rw [h] at h'; cases h'⟩

end Search

section Explore

variable {compile : LibraryId → LinkM Unit} {I : Store → Search → Prop}
  {Q : List Declaration → Store → Prop} {E : Store → Prop}

/-- One round of an exploration: as far as a search gets without compiling anything. -/
theorem explore_succ (compile : LibraryId → LinkM Unit) (fuel : Nat) (s : Search)
    (store : Store) : explore compile (fuel + 1) s store =
      match s.run store (s.bound store) with
      | .finished found => (.ok found, store)
      | .failed fault => (.error fault, store)
      | .moved _ => (.error Cause.endless.fault, store)
      | .needs id s => (do
          compile id
          explore compile fuel s : LinkM (List Declaration)) store := by
  rw [explore]
  show (match s.run store (s.bound store) with
    | .finished found => return found
    | .failed fault => throw fault
    | .moved _ => throw Cause.endless.fault
    | .needs id s => do
      compile id
      explore compile fuel s : LinkM (List Declaration)) store = _
  cases s.run store (s.bound store) <;> rfl

/-- What is invariant under steps, and under compiling what a step needs, holds at the end. -/
theorem ends_explore
    (moved : ∀ store s s', I store s → s.step store = .moved s' → I store s')
    (needs : ∀ store s id, I store s → s.step store = .needs id s →
      Ends (fun _ store' => I store' s) E (compile id store))
    (finished : ∀ store s, I store s → s.pending = [] → Q s.found store)
    (failed : ∀ store s, I store s → E store) {fuel : Nat} {store : Store} {s : Search}
    (hs : I store s) : Ends Q E (explore compile fuel s store) := by
  induction fuel generalizing store s with
  | zero => exact failed store s hs
  | succ fuel ih =>
    unfold explore
    apply ends_bind.2
    apply ends_get.2
    rcases Search.run_eq_step (moved store) (s.bound store) hs with ⟨s', hs', hrun⟩ | ⟨s', hrun⟩
    · rw [hrun]
      have hstepped := Search.stepped store s'
      cases hr : s'.step store with
      | finished found =>
        rw [hr] at hstepped
        cases hstepped with
        | finished hpending => exact finished store s' hs' hpending
      | failed fault => exact failed store s' hs'
      | moved s'' => exact failed store s' hs'
      | needs id s'' =>
        rw [hr] at hstepped
        cases hstepped with
        | needs =>
          exact (needs store s' id hs' hr).bind fun _ _ h => ih h
    · rw [hrun]
      exact failed store s hs

end Explore

end ShaderLink
