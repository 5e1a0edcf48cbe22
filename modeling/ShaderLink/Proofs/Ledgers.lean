import Mathlib.Data.List.Nodup
import ShaderLink.Proofs.Frames

/-!
# Ledgers of compilations

A library is `Complete` if it has one module for each of its leaves and plugins have worked on each
of them.  A `Ledger` lists libraries with the calls in which this was done, and `Tried` those that
could not be compiled to the end with the calls that were made for their leaves before.
`Store.Settles` says that between two stores just the libraries in a ledger were compiled, each of
them to the end, and that all others are as they were, and `Store.Tallies` that no calls were made
but those for these libraries, and some of one's own.
-/

namespace ShaderLink

open LinkM

/-- The modules of a library in the order of its leaves, with the calls in which plugins worked on
each of them. -/
abbrev Work := List (ModuleId × Calls)

/-- Libraries with what was done for them. -/
abbrev Ledger := List (LibraryId × Work)

/-- Libraries with the calls that were made for each of their first leaves. -/
abbrev Tried := List (LibraryId × List Calls)

/-- All calls for the modules of a library. -/
def Work.calls (work : Work) : Calls := work.flatMap Prod.snd

/-- All calls in a ledger. -/
def Ledger.calls (done : Ledger) : Calls := done.flatMap fun e => Work.calls e.2

/-- All calls for libraries that could not be compiled. -/
def Tried.calls (broken : Tried) : Calls := broken.flatMap fun e => e.2.flatten

theorem Work.calls_eq_flatten (work : Work) : Work.calls work = (work.map Prod.snd).flatten := by
  rw [Work.calls, List.flatMap_def]

theorem Ledger.calls_append (done done' : Ledger) :
    Ledger.calls (done ++ done') = Ledger.calls done ++ Ledger.calls done' :=
  List.flatMap_append

namespace Store

/-- The module is what a leaf stands for. -/
structure Fills (s : Store) (leaf : Text × Source) (i : ModuleId) : Prop where
  lt_size : i < s.modules.size
  path : (s.module i).path = leaf.1
  source : leaf.2 = .code (s.module i).source ∨ leaf.2 = .built i

/-- Different leaves have different modules. -/
theorem nodup_of_forall₂_fills {s : Store} {leaves : List (Text × Source)} {ids : List ModuleId}
    (h : List.Forall₂ s.Fills leaves ids) (hleaves : (leaves.map Prod.fst).Nodup) : ids.Nodup := by
  have hpaths : leaves.map Prod.fst = ids.map fun i => (s.module i).path := by
    induction h with
    | nil => rfl
    | cons hfills _ ih =>
      rw [List.map_cons, List.map_cons, hfills.path, ih (List.nodup_cons.1 hleaves).2]
  exact List.Nodup.of_map _ (hpaths ▸ hleaves)

/-- No more calls were made for a leaf of a library than for one module: no plugin was called twice
for the text, nor for the declarations.  A module that is a leaf of other libraries too may be in the
scope of one of them when plugins are called for its declarations. -/
structure Tries (s : Store) (id : LibraryId) (plugins : List Plugin) (leaf : Text × Source)
    (calls : Calls) : Prop where
  preprocessed : calls.preprocessed <+: plugins.map (·.serial)
  path : ∀ x ∈ calls.transformed, x.2 = leaf.1
  transformed : (∀ i, leaf.2 = .built i → s.Unshared id i) →
    calls.transformed <+: plugins.map fun p => (p.serial, leaf.1)

/-- The calls were made for the first leaves of the library. -/
def Attempts (s : Store) (id : LibraryId) (tries : List Calls) : Prop :=
  ∃ leaves, leaves <+: (s.library id).leaves ∧
    List.Forall₂ (s.Tries id (s.library id).plugins) leaves tries

/-- The library is compiled with one module for each leaf, and the plugins have worked on each of
those that no other library has as a leaf. -/
structure Complete (s : Store) (id : LibraryId) (plugins : List Plugin) (work : Work) : Prop where
  compiled : s.IsCompiled id
  modules : (s.library id).modules = ((s.library id).leaves.map Prod.fst).zip (work.map Prod.fst)
  fills : List.Forall₂ (fun leaf w => s.Fills leaf w.1) (s.library id).leaves work
  tries : List.Forall₂ (fun leaf w => s.Tries id plugins leaf w.2) (s.library id).leaves work
  worked : ∀ w ∈ work, s.Unshared id w.1 →
    (s.module w.1).scope.owner = .library id ∧ (s.module w.1).WorkedOn plugins w.2

variable {L : LibraryId → Prop} {M : ModuleId → Prop} {s s' s'' : Store} {id : LibraryId}
  {i : ModuleId} {leaf : Text × Source} {plugins : List Plugin} {work : Work} {calls : Calls}

theorem Fills.of_spares (h : s.Fills leaf i) (hs : Spares L M s s') : s'.Fills leaf i where
  lt_size := h.lt_size.trans_le hs.modules_size
  path := (hs.path i h.lt_size).trans h.path
  source := by
    rw [hs.source i h.lt_size]
    exact h.source

/-- A module that is only read was not tried more than once. -/
theorem Tries.of_reads (h : calls.Reads plugins) : s.Tries id plugins leaf calls where
  preprocessed := h.preprocessed
  path x hx := by
    rw [h.transformed] at hx
    cases hx
  transformed _ := h.transformed ▸ List.nil_prefix

theorem Tries.of_spares (h : s.Tries id plugins leaf calls) (hs : Spares L M s s') :
    s'.Tries id plugins leaf calls where
  preprocessed := h.preprocessed
  path := h.path
  transformed hunshared := by
    rw [hs.unshared] at hunshared
    exact h.transformed hunshared

theorem Attempts.of_spares {tries : List Calls} (h : s'.Attempts id tries) (hs : Spares L M s s') :
    s.Attempts id tries := by
  obtain ⟨leaves, hleaves, h⟩ := h
  rw [hs.leaves] at hleaves
  refine ⟨leaves, hleaves, h.imp fun leaf calls h => ⟨?_, h.path, fun hunshared => ?_⟩⟩
  · rw [← hs.plugins]
    exact h.preprocessed
  · rw [← hs.plugins]
    exact h.transformed (hs.unshared ▸ hunshared)

theorem Complete.lt_size (h : s.Complete id plugins work) {w : ModuleId × Calls} (hw : w ∈ work) :
    w.1 < s.modules.size := by
  obtain ⟨leaf, -, hfills⟩ := exists_of_forall₂_right h.fills hw
  exact hfills.lt_size

/-- A library stays complete if it is not touched, nor those of its modules that are its own. -/
theorem Complete.of_spares (h : s.Complete id plugins work) (hs : Spares L M s s') (hid : L id)
    (hM : ∀ w ∈ work, s.Unshared id w.1 → M w.1) : s'.Complete id plugins work := by
  have hlibrary := hs.libraries id hid
  refine ⟨?_, ?_, ?_, ?_, fun w hw hunshared => ?_⟩
  · rw [IsCompiled, hlibrary]
    exact h.compiled
  · rw [hlibrary]
    exact h.modules
  · rw [hlibrary]
    exact h.fills.imp fun _ _ hfills => hfills.of_spares hs
  · rw [hlibrary]
    exact h.tries.imp fun _ _ htries => htries.of_spares hs
  · rw [hs.unshared] at hunshared
    rw [hs.modules w.1 (h.lt_size hw) (hM w hw hunshared)]
    exact h.worked w hw hunshared

theorem Complete.of_frame (h : s.Complete id plugins work) (hs : Frame s s') :
    s'.Complete id plugins work := by
  refine h.of_spares hs h.compiled fun w hw hunshared => ?_
  rintro ⟨id', hid', hleaf⟩
  refine hunshared id' ?_ hleaf
  rintro rfl
  exact hid' h.compiled

/-- No module of a complete library belongs to another library, unless that has it as a leaf. -/
theorem Complete.of_alters (h : s.Complete id plugins work) (hs : Alters i calls s s')
    (hi : s.Unshared id i → (s.module i).scope.owner ≠ .library id) :
    s'.Complete id plugins work := by
  have hspares : Spares (fun _ => True) (fun j => j ≠ i) s s' := hs.spares (by simp)
  refine h.of_spares hspares trivial fun w hw hunshared => ?_
  rintro rfl
  exact hi hunshared (h.worked w hw hunshared).1

/-- The libraries in the ledger, and no others but those in `skip`, were compiled to the end. -/
structure Settles (skip : LibraryId → Prop) (s s' : Store) (done : Ledger) : Prop where
  frame : Frame s s'
  regular : s'.Regular
  distinct : (done.map Prod.fst).Nodup
  mem_iff : ∀ id, id ∈ done.map Prod.fst ↔ ¬ skip id ∧ ¬ s.IsCompiled id ∧ s'.IsCompiled id
  complete : ∀ e ∈ done, s'.Complete e.1 (s'.library e.1).plugins e.2

/-- The libraries in the ledger were compiled to the end, those in `broken` were not.  Just these
calls were made: those for the modules of the former, those for the first leaves of the latter, and
`own`. -/
structure Tallies (skip : LibraryId → Prop) (s s' : Store) (done : Ledger) (broken : Tried)
    (own : Calls) : Prop extends Settles skip s s' done where
  interrupted : ∀ e ∈ broken, ¬ s'.IsCompiled e.1 ∧ s.Attempts e.1 e.2
  apart : (broken.map Prod.fst).Nodup
  calls : ∃ new, s'.calls = s.calls ++ new ∧
    new.Perm (Ledger.calls done ++ Tried.calls broken ++ own)

namespace Settles

variable {skip : LibraryId → Prop} {done done' : Ledger}

theorem of_same (h : Frame s s') (hs' : s'.Regular)
    (hcompiled : ∀ id, ¬ skip id → s'.IsCompiled id → s.IsCompiled id) : Settles skip s s' [] where
  frame := h
  regular := hs'
  distinct := List.nodup_nil
  mem_iff id := by
    refine ⟨fun h => absurd h List.not_mem_nil, ?_⟩
    rintro ⟨hskip, hid, hid'⟩
    exact absurd (hcompiled id hskip hid') hid
  complete _ h := absurd h List.not_mem_nil

theorem trans (h : Settles skip s s' done) (hskip : ∀ id, skip id → s'.IsCompiled id)
    (h' : Settles (fun _ => False) s' s'' done') : Settles skip s s'' (done ++ done') where
  frame := h.frame.trans h'.frame
  regular := h'.regular
  distinct := by
    rw [List.map_append]
    refine List.nodup_append.2 ⟨h.distinct, h'.distinct, ?_⟩
    rintro id hid _ hid' rfl
    exact ((h'.mem_iff id).1 hid').2.1 ((h.mem_iff id).1 hid).2.2
  mem_iff id := by
    rw [List.map_append, List.mem_append, h.mem_iff, h'.mem_iff]
    constructor
    · rintro (⟨hid, hs, hs'⟩ | ⟨-, hs', hs''⟩)
      · exact ⟨hid, hs, h'.frame.isCompiled hs'⟩
      · exact ⟨fun hid => hs' (hskip id hid), fun hs => hs' (h.frame.isCompiled hs), hs''⟩
    · rintro ⟨hid, hs, hs''⟩
      by_cases hs' : s'.IsCompiled id
      · exact Or.inl ⟨hid, hs, hs'⟩
      · exact Or.inr ⟨not_false, hs', hs''⟩
  complete e he := by
    rcases List.mem_append.1 he with he | he
    · rw [h'.frame.plugins]
      exact (h.complete e he).of_frame h'.frame
    · exact h'.complete e he

/-- The rest of a computation that compiles nothing. -/
theorem step (h : Settles skip s s' done) (hspares : Spares (fun _ => True) M s' s'')
    (hframe : Frame s s'') (hs'' : s''.Regular)
    (hcomplete : ∀ e ∈ done, s''.Complete e.1 (s'.library e.1).plugins e.2) :
    Settles skip s s'' done where
  frame := hframe
  regular := hs''
  distinct := h.distinct
  mem_iff id := by
    rw [h.mem_iff, IsCompiled, IsCompiled, IsCompiled, hspares.libraries id trivial]
  complete e he := by
    rw [hspares.plugins]
    exact hcomplete e he

theorem called (h : Settles skip s s' done) (hs : Called calls s' s'') :
    Settles skip s s'' done := by
  have hspares : Spares (fun _ => True) (fun _ => True) s' s'' := hs.spares
  exact h.step hspares (h.frame.trans (hspares.mono (by simp) (by simp))) (h.regular.of_called hs)
    fun e he => (h.complete e he).of_spares hspares trivial fun _ _ _ => trivial

theorem alters (h : Settles skip s s' done) (hs : Alters i calls s' s'')
    (hi : s.IsFree i ∨ s.modules.size ≤ i) (hscope : s''.InScope (s''.module i).scope)
    (howner : ∀ e ∈ done, s'.Unshared e.1 i → (s'.module i).scope.owner ≠ .library e.1) :
    Settles skip s s'' done := by
  have hspares : Spares (fun _ => True) (fun j => j ≠ i) s' s'' := hs.spares (by simp)
  have hframe : Frame s s'' := h.frame.alters hs fun hnot => hi.resolve_left hnot
  exact h.step hspares hframe (h.regular.of_alters hs hscope)
    fun e he => (h.complete e he).of_alters hs (howner e he)

end Settles

namespace Tallies

variable {skip : LibraryId → Prop} {done done' : Ledger} {broken : Tried} {own own' : Calls}

/-- Nothing was compiled, and just these calls were made. -/
theorem of_same (h : Frame s s') (hs' : s'.Regular)
    (hcompiled : ∀ id, ¬ skip id → s'.IsCompiled id → s.IsCompiled id)
    (hcalls : s'.calls = s.calls ++ own) : Tallies skip s s' [] [] own where
  toSettles := .of_same h hs' hcompiled
  interrupted _ h := absurd h List.not_mem_nil
  apart := List.nodup_nil
  calls := ⟨own, hcalls, .refl _⟩

theorem refl (hs : s.Regular) : Tallies skip s s [] [] [] :=
  .of_same (.refl _ _ s) hs (fun _ _ h => h) (List.append_nil _).symm

theorem trans (h : Tallies skip s s' done [] own) (hskip : ∀ id, skip id → s'.IsCompiled id)
    (h' : Tallies (fun _ => False) s' s'' done' broken own') :
    Tallies skip s s'' (done ++ done') broken (own ++ own') where
  toSettles := h.toSettles.trans hskip h'.toSettles
  interrupted e he := ⟨(h'.interrupted e he).1, (h'.interrupted e he).2.of_spares h.frame⟩
  apart := h'.apart
  calls := by
    obtain ⟨new, hcalls, hperm⟩ := h.calls
    obtain ⟨new', hcalls', hperm'⟩ := h'.calls
    refine ⟨new ++ new', by rw [hcalls', hcalls, List.append_assoc], ?_⟩
    rw [Ledger.calls_append]
    refine (hperm.append hperm').trans ?_
    classical
    refine List.perm_iff_count.2 fun call => ?_
    simp only [Tried.calls, List.flatMap_nil, List.count_append, List.count_nil]
    omega

/-- The rest of a computation that compiles nothing. -/
theorem step (h : Tallies skip s s' done broken own) (hsettles : Settles skip s s'' done)
    (hcompiled : s''.IsCompiled = s'.IsCompiled) (hcalls : s''.calls = s'.calls ++ calls) :
    Tallies skip s s'' done broken (own ++ calls) where
  toSettles := hsettles
  interrupted e he := ⟨hcompiled ▸ (h.interrupted e he).1, (h.interrupted e he).2⟩
  apart := h.apart
  calls := by
    obtain ⟨new, hnew, hperm⟩ := h.calls
    refine ⟨new ++ calls, by rw [hcalls, hnew, List.append_assoc], ?_⟩
    rw [← List.append_assoc]
    exact hperm.append_right calls

theorem called (h : Tallies skip s s' done broken own) (hs : Called calls s' s'') :
    Tallies skip s s'' done broken (own ++ calls) := by
  refine h.step (h.toSettles.called hs) ?_ hs.calls_eq
  funext id
  rw [IsCompiled, IsCompiled, hs.toQuiet.library]

end Tallies

end Store

end ShaderLink
