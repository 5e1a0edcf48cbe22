import Mathlib.Data.List.Flatten
import ShaderLink.Proofs.Sessions

/-!
# What a search visits

If all libraries that can be imported from are compiled, and each name stands for one of them, a
search changes nothing.  It visits the roots, and what is declared under the ids to which visited
declarations refer, unless these are ids of roots (`Store.Visits`).  Each step makes
`Search.remaining` smaller, so the search ends by itself.  `Search.Traced` is its invariant:
references are not forgotten before what they refer to was found, and imports not before they have
been checked.  So the search ends well just if all imports that are visited are allowed, and then
all that was visited was found (`reach_outcome`); in particular an import cannot escape the check
because of what else was visited before (`reach_returns_iff`).
-/

namespace ShaderLink

open LinkM

namespace Store

/-- The libraries that can be imported from: those in the table, and those from which their modules
can import. -/
inductive Importable (s : Store) (libraries : Table Text LibraryId) : LibraryId → Prop where
  | given {p : Text × LibraryId} (h : p ∈ libraries) : Importable s libraries p.2
  | dependency {id : LibraryId} {p : Text × LibraryId} (h : Importable s libraries id)
      (hp : p ∈ (s.library id).dependencies) : Importable s libraries p.2

/-- All libraries that can be imported from are compiled, and each name stands for one of them. -/
structure Ready (s : Store) (libraries : Table Text LibraryId) : Prop where
  names : s.Names libraries
  compiled : ∀ id, s.Importable libraries id → s.IsCompiled id
  apart : ∀ id id', s.Importable libraries id → s.Importable libraries id' →
    (s.library id).name = (s.library id').name → id = id'

/-- The module stands at the path in that library, for those who can import from the libraries in
the table. -/
structure Stands (s : Store) (libraries : Table Text LibraryId) (path : Text) (id : LibraryId)
    (i : ModuleId) : Prop where
  named : firstSegment path ≠ []
  library : libraries.get? (firstSegment path) = some id
  module : (s.library id).modules.get? path = some i

/-- What a search visits, with the libraries that can be imported from there.  The roots import from
the given libraries, and all others from those of their own library; ids of roots are not looked
up. -/
inductive Visits (s : Store) (roots : List Declaration) (libraries : Table Text LibraryId) :
    Declaration → Table Text LibraryId → Prop where
  | root {d : Declaration} (h : d ∈ roots) : Visits s roots libraries d libraries
  | used {d c : Declaration} {t : Table Text LibraryId} {r : Reference} {id : LibraryId}
      {i : ModuleId} (h : Visits s roots libraries d t) (hr : r ∈ d.references)
      (hnew : r.id ∉ roots.map (·.id)) (hi : s.Stands t r.path id i)
      (hc : c ∈ (s.module i).declarations) (hname : c.name = r.name) :
      Visits s roots libraries c (s.library id).dependencies

/-- An import is allowed for a user with that id: the module declares the name, and its first export
of the name is not internal, or the user belongs to the same library. -/
def Allows (s : Store) (libraries : Table Text LibraryId) (user : Text) (r : Reference) : Prop :=
  ∃ id i e, s.Stands libraries r.path id i ∧ (∃ c ∈ (s.module i).declarations, c.name = r.name) ∧
    (s.module i).exports.find? (·.name == r.name) = some e ∧
      (e.isInternal = true → firstSegment user = firstSegment r.path)

/-- All imports of what is visited are allowed. -/
def Permits (s : Store) (roots : List Declaration) (libraries : Table Text LibraryId) : Prop :=
  ∀ d t, s.Visits roots libraries d t → ∀ r ∈ d.references, r.origin = .imported →
    s.Allows t d.id r

/-- Something visited refers to the id. -/
def Requests (s : Store) (roots : List Declaration) (libraries : Table Text LibraryId)
    (id : Text) : Prop :=
  ∃ d t, s.Visits roots libraries d t ∧ ∃ r ∈ d.references, r.id = id

/-- All that is visited beside the roots, each declaration once: just the ids that are requested,
without those of the roots, and all that is looked up for them. -/
structure Collects (s : Store) (roots : List Declaration) (libraries : Table Text LibraryId)
    (found : List Declaration) : Prop where
  once : (found.map (·.serial)).Nodup
  ids : ∀ id, id ∈ found.map (·.id) ↔ s.Requests roots libraries id ∧ id ∉ roots.map (·.id)
  mem_iff : ∀ d, d ∈ found ↔ (∃ t, s.Visits roots libraries d t) ∧ d.id ∉ roots.map (·.id)

/-! ## Where things are -/

section Visits

variable {s : Store} {roots : List Declaration} {libraries t t' : Table Text LibraryId}
  {d : Declaration} {path : Text} {id id' : LibraryId} {i i' : ModuleId}

/-- All libraries in the table can be imported from, under their names. -/
def InSight (s : Store) (libraries t : Table Text LibraryId) : Prop :=
  s.Names t ∧ ∀ p ∈ t, s.Importable libraries p.2

theorem Visits.inSight (hs : s.Sound) (hr : s.Ready libraries) (h : s.Visits roots libraries d t) :
    s.InSight libraries t := by
  induction h with
  | root _ => exact ⟨hr.names, fun p hp => .given hp⟩
  | used _ _ _ hi _ _ ih =>
    exact ⟨hs.named _, fun p hp =>
      .dependency (ih.2 _ (Table.mem_of_get?_eq_some hi.library)) hp⟩

theorem Stands.importable (ht : s.InSight libraries t) (h : s.Stands t path id i) :
    s.Importable libraries id ∧ (s.library id).name = firstSegment path :=
  have hp := Table.mem_of_get?_eq_some h.library
  ⟨ht.2 _ hp, (ht.1 _ hp).2⟩

theorem Stands.unique (hr : s.Ready libraries) (ht : s.InSight libraries t)
    (ht' : s.InSight libraries t') (h : s.Stands t path id i) (h' : s.Stands t' path id' i') :
    id = id' ∧ i = i' := by
  obtain ⟨hid, hname⟩ := h.importable ht
  obtain ⟨hid', hname'⟩ := h'.importable ht'
  obtain rfl := hr.apart id id' hid hid' (hname.trans hname'.symm)
  exact ⟨rfl, Option.some.inj (h.module.symm.trans h'.module)⟩

theorem Stands.path_eq (hs : s.Sound) (h : s.Stands t path id i) : (s.module i).path = path := by
  refine (hs.placed id _ (Table.mem_of_get?_eq_some h.module)).2 ?_
  rintro rfl
  exact h.named rfl

/-- What is declared under the name of a reference has its id. -/
theorem Stands.id_eq (hs : s.Sound) {r : Reference} (h : s.Stands t r.path id i)
    (hd : d ∈ (s.module i).declarations) (hname : d.name = r.name) : d.id = r.id := by
  rw [Declaration.id, (hs.numbered i).path_eq d hd, h.path_eq hs, hname, Reference.id]

/-- What is visited is a root, or it stands in a module of a library and imports from there. -/
theorem Visits.cases (hs : s.Sound) (h : s.Visits roots libraries d t) :
    (d ∈ roots ∧ t = libraries) ∨ d.id ∉ roots.map (·.id) ∧
      ∃ d' t' r id i, s.Visits roots libraries d' t' ∧ r ∈ d'.references ∧ r.id = d.id ∧
        r.path = d.path ∧ s.Stands t' d.path id i ∧ d ∈ (s.module i).declarations ∧
          t = (s.library id).dependencies := by
  cases h with
  | root h => exact Or.inl ⟨h, rfl⟩
  | @used d' _ t' r id i h hr hnew hi hc hname =>
    have hid := hi.id_eq hs hc hname
    have hpath : d.path = r.path := ((hs.numbered i).path_eq d hc).trans (hi.path_eq hs)
    exact Or.inr ⟨hid ▸ hnew, d', t', r, id, i, h, hr, hid.symm, hpath.symm, hpath ▸ hi, hc, rfl⟩

/-- The module of a library in which a declaration stands is in its place. -/
theorem Stands.itself (hs : s.Sound) (hr : s.Ready libraries) (ht : s.InSight libraries t)
    (h : s.Stands t path id i) : s.Stands (s.library id).dependencies path id i := by
  obtain ⟨hid, hname⟩ := h.importable ht
  refine ⟨h.named, ?_, h.module⟩
  have hlt : id < s.libraries.size := (ht.1 _ (Table.mem_of_get?_eq_some h.library)).1
  have hkey : firstSegment path ∈ (s.library id).dependencies.keys := hname ▸ hs.itself id hlt
  cases hget : (s.library id).dependencies.get? (firstSegment path) with
  | none => exact absurd hkey (Table.get?_eq_none_iff.1 hget)
  | some id' =>
    have hmem := Table.mem_of_get?_eq_some hget
    have hname' := (hs.named id _ hmem).2
    rw [hr.apart id' id (.dependency hid hmem) hid (hname'.trans hname.symm)]

/-- From where a declaration can import does not depend on how it was visited. -/
theorem Visits.table_unique (hs : s.Sound) (hr : s.Ready libraries)
    (h : s.Visits roots libraries d t) (h' : s.Visits roots libraries d t') : t = t' := by
  have hroot : d ∈ roots → d.id ∈ roots.map (·.id) := fun h => List.mem_map_of_mem h
  rcases h.cases hs with ⟨hd, rfl⟩ | ⟨hd, d₁, t₁, -, id₁, i₁, h₁, -, -, -, hi₁, -, rfl⟩ <;>
    rcases h'.cases hs with ⟨hd', rfl⟩ | ⟨hd', d₂, t₂, -, id₂, i₂, h₂, -, -, -, hi₂, -, rfl⟩
  · rfl
  · exact absurd (hroot hd) hd'
  · exact absurd (hroot hd') hd
  · rw [(hi₁.unique hr (h₁.inSight hs hr) (h₂.inSight hs hr) hi₂).1]

/-- What is visited stands in some module. -/
theorem Visits.exists_module (hs : s.Sound) (hroots : ∀ d ∈ roots, d ∈ (s.module i).declarations)
    (h : s.Visits roots libraries d t) : ∃ j, d ∈ (s.module j).declarations := by
  rcases h.cases hs with ⟨hd, -⟩ | ⟨-, -, -, -, -, j, -, -, -, -, -, hd, -⟩
  · exact ⟨i, hroots d hd⟩
  · exact ⟨j, hd⟩

end Visits

end Store

open Store

/-- The fault says that something was looked up in vain. -/
def Fault.IsLookup (fault : Fault) : Prop :=
  ∃ family, fault.cause.family = some family ∧ Family.lookup ∈ family.ancestry

instance (fault : Fault) : Decidable fault.IsLookup :=
  match h : fault.cause.family with
  | none => .isFalse fun ⟨f, hf, _⟩ => nomatch h.symm.trans hf
  | some f => decidable_of_iff (Family.lookup ∈ f.ancestry)
      ⟨fun hf => ⟨f, h, hf⟩, fun ⟨g, hg, hf⟩ => by rwa [Option.some.inj (h.symm.trans hg)]⟩

namespace Search

/-! ## Following a reference -/

section Lookup

variable {s : Store} {m : Module} {t libraries : Table Text LibraryId} {user : Text}
  {r : Reference} {id : LibraryId} {i : ModuleId} {ds : List Declaration}

theorem checkExport_eq_ok_iff {name : Text} (hm : firstSegment m.path ≠ []) :
    m.checkExport name user = .ok () ↔ ∃ e, m.exports.find? (·.name == name) = some e ∧
      (e.isInternal = true → firstSegment user = firstSegment m.path) := by
  unfold Module.checkExport
  cases m.exports.find? (·.name == name) with
  | none => exact ⟨nofun, fun ⟨e, he, _⟩ => nomatch he⟩
  | some e =>
    simp only [Option.some.injEq, exists_eq_left']
    by_cases he : e.isInternal = true
    · rw [if_pos he, libraryOf_eq_ok_iff.2 ⟨rfl, hm⟩]
      cases huser : libraryOf user with
      | error fault =>
        refine ⟨nofun, fun h => ?_⟩
        rw [libraryOf_eq_ok_iff.2 ⟨h he, hm⟩] at huser
        cases huser
      | ok origin =>
        obtain ⟨rfl, -⟩ := libraryOf_eq_ok_iff.1 huser
        show (if firstSegment user ≠ firstSegment m.path then
          Except.error _ else Except.ok ()) = _ ↔ _
        by_cases h : firstSegment user = firstSegment m.path <;> simp [h, he]
    · simp [he]

theorem leads_iff {p : Pending} :
    Leads s p id ds ↔ (s.library id).isCompiled = true ∧ ∃ i,
      s.Stands p.libraries p.reference.path id i ∧
        (s.module i).lookup p.reference.name p.reference.origin p.user = .ok ds := by
  have hlookup : s.lookup (s.library id) p.reference.path p.reference.name p.reference.origin
      p.user = .ok ds ↔ ∃ i, (s.library id).modules.get? p.reference.path = some i ∧
        (s.module i).lookup p.reference.name p.reference.origin p.user = .ok ds := by
    unfold Store.lookup
    cases (s.library id).modules.get? p.reference.path <;> simp
  constructor
  · rintro ⟨hlibrary, hcompiled, h⟩
    obtain ⟨i, hi, h⟩ := hlookup.1 h
    obtain ⟨hne, hget⟩ := Pending.library_eq_ok_iff.1 hlibrary
    exact ⟨hcompiled, i, ⟨hne, hget, hi⟩, h⟩
  · rintro ⟨hcompiled, i, hi, h⟩
    exact ⟨Pending.library_eq_ok_iff.2 ⟨hi.named, hi.library⟩, hcompiled,
      hlookup.2 ⟨i, hi.module, h⟩⟩

/-- What a reference leads to is all that is declared under its name. -/
theorem Leads.exists_stands {p : Pending} (h : Leads s p id ds) :
    ∃ i, s.Stands p.libraries p.reference.path id i ∧ ds ≠ [] ∧
      ∀ c, c ∈ ds ↔ c ∈ (s.module i).declarations ∧ c.name = p.reference.name := by
  obtain ⟨-, i, hi, hlookup⟩ := leads_iff.1 h
  obtain ⟨-, hne, rfl⟩ := lookup_eq_ok_iff.1 hlookup
  exact ⟨i, hi, hne, by simp⟩

theorem Leads.sublist {p : Pending} (h : Leads s p id ds) :
    ∃ i, ds.Sublist (s.module i).declarations := by
  obtain ⟨-, i, -, hlookup⟩ := leads_iff.1 h
  obtain ⟨-, -, rfl⟩ := lookup_eq_ok_iff.1 hlookup
  exact ⟨i, List.filter_sublist⟩

theorem Breaks.not_leads {p : Pending} {fault : Fault} (h : Breaks s p fault) :
    ¬ ∃ id ds, Leads s p id ds := by
  rintro ⟨id, ds, hlibrary, hcompiled, hlookup⟩
  cases h with
  | library h =>
    rw [h] at hlibrary
    cases hlibrary
  | lookup hlibrary' _ h =>
    rw [hlibrary] at hlibrary'
    cases hlibrary'
    rw [h] at hlookup
    cases hlookup

theorem isLookup_of_libraryOf {path : Text} {fault : Fault} (h : libraryOf path = .error fault) :
    fault.IsLookup := by
  unfold libraryOf at h
  split at h
  · cases h
    exact ⟨_, rfl, by decide⟩
  · cases h

theorem isLookup_of_checkExport {name : Text} {fault : Fault}
    (h : m.checkExport name user = .error fault) : fault.IsLookup := by
  unfold Module.checkExport at h
  split at h
  · cases h
    exact ⟨_, rfl, by decide⟩
  · split at h
    · cases huser : libraryOf user with
      | error fault' =>
        rw [huser] at h
        cases h
        exact isLookup_of_libraryOf huser
      | ok origin =>
        cases hown : libraryOf m.path with
        | error fault' =>
          rw [huser, hown] at h
          cases h
          exact isLookup_of_libraryOf hown
        | ok own =>
          rw [huser, hown] at h
          change (if origin ≠ own then Except.error _ else Except.ok ()) = _ at h
          split at h
          · cases h
            exact ⟨_, rfl, by decide⟩
          · cases h
    · cases h

theorem isLookup_of_lookup {name : Text} {origin : Origin} {fault : Fault}
    (h : m.lookup name origin user = .error fault) : fault.IsLookup := by
  unfold Module.lookup at h
  generalize m.declarations.filter (·.name == name) = found at h
  by_cases ho : origin = .imported
  · rw [if_pos ho] at h
    cases hc : m.checkExport name user with
    | error fault' =>
      rw [hc] at h
      cases h
      exact isLookup_of_checkExport hc
    | ok _ =>
      rw [hc] at h
      cases found <;> cases h
      exact ⟨_, rfl, by decide⟩
  · rw [if_neg ho] at h
    cases found <;> cases h
    exact ⟨_, rfl, by decide⟩

/-- Whatever stops a search, it is a fault of looking up. -/
theorem Breaks.isLookup {p : Pending} {fault : Fault} (h : Breaks s p fault) : fault.IsLookup := by
  cases h with
  | library h =>
    unfold Pending.library at h
    cases hname : libraryOf p.reference.path with
    | error fault' =>
      rw [hname] at h
      cases h
      exact isLookup_of_libraryOf hname
    | ok name =>
      rw [hname] at h
      cases hget : p.libraries.get? name <;>
        simp only [bind, Except.bind, hget] at h <;> cases h
      exact ⟨_, rfl, by decide⟩
  | lookup _ _ h =>
    unfold Store.lookup at h
    split at h
    · cases h
      exact ⟨_, rfl, by decide⟩
    · exact isLookup_of_lookup h

theorem exists_leads_iff {p : Pending}
    (hcompiled : ∀ id i, s.Stands p.libraries p.reference.path id i → s.IsCompiled id) :
    (∃ id ds, Leads s p id ds) ↔ ∃ id i, s.Stands p.libraries p.reference.path id i ∧
      (∃ c ∈ (s.module i).declarations, c.name = p.reference.name) ∧
        (p.reference.origin = .imported →
          (s.module i).checkExport p.reference.name p.user = .ok ()) := by
  constructor
  · rintro ⟨id, ds, h⟩
    obtain ⟨-, i, hi, hlookup⟩ := leads_iff.1 h
    obtain ⟨hcheck, hne, rfl⟩ := lookup_eq_ok_iff.1 hlookup
    obtain ⟨c, hc⟩ := List.exists_mem_of_ne_nil _ hne
    obtain ⟨hc, hname⟩ := List.mem_filter.1 hc
    exact ⟨id, i, hi, ⟨c, hc, beq_iff_eq.1 hname⟩, hcheck⟩
  · rintro ⟨id, i, hi, ⟨c, hc, hname⟩, hcheck⟩
    refine ⟨id, _, leads_iff.2 ⟨hcompiled id i hi, i, hi, lookup_eq_ok_iff.2 ⟨hcheck, ?_, rfl⟩⟩⟩
    exact List.ne_nil_of_mem (List.mem_filter.2 ⟨hc, beq_iff_eq.2 hname⟩)

theorem allows_iff (hs : s.Sound)
    (hcompiled : ∀ id i, s.Stands t r.path id i → s.IsCompiled id) (hr : r.origin = .imported) :
    s.Allows t user r ↔ ∃ id ds, Leads s ⟨r, user, t⟩ id ds := by
  rw [exists_leads_iff hcompiled]
  have hcheck : ∀ id i, s.Stands t r.path id i →
      ((s.module i).checkExport r.name user = .ok () ↔
        ∃ e, (s.module i).exports.find? (·.name == r.name) = some e ∧
          (e.isInternal = true → firstSegment user = firstSegment r.path)) := by
    intro id i hi
    have hpath := hi.path_eq hs
    rw [checkExport_eq_ok_iff (hpath ▸ hi.named), hpath]
  constructor
  · rintro ⟨id, i, e, hi, hc, he⟩
    exact ⟨id, i, hi, hc, fun _ => (hcheck id i hi).2 ⟨e, he⟩⟩
  · rintro ⟨id, i, hi, hc, h⟩
    obtain ⟨e, he⟩ := (hcheck id i hi).1 (h hr)
    exact ⟨id, i, e, hi, hc, he⟩

end Lookup

/-! ## Steps that remain -/

/-- All references in a store. -/
def storedReferences (store : Store) : List Reference :=
  store.modules.toList.flatMap fun m => m.declarations.flatMap (·.references)

/-- The references in a store whose ids have not been seen. -/
def unseen (store : Store) (seen : List Text) : Nat :=
  (storedReferences store).countP fun r => !seen.contains r.id

/-- A bound for the steps that remain: each reference that waits is followed, and each id that has
not been seen may add all references that there are. -/
def remaining (store : Store) (s : Search) : Nat :=
  s.pending.length + referenceCount store * unseen store s.seen

section Remaining

variable {store : Store} {s : Search} {i : ModuleId}

theorem sublist_storedReferences (store : Store) (i : ModuleId) :
    ((store.module i).declarations.flatMap (·.references)).Sublist (storedReferences store) := by
  by_cases hi : i < store.modules.size
  · have hmem : store.module i ∈ store.modules.toList := by
      simp [Store.module, hi]
    exact List.sublist_flatten_of_mem (List.mem_map_of_mem hmem)
  · rw [module_of_size_le store (not_lt.1 hi)]
    exact List.nil_sublist _

theorem length_references_le {ds : List Declaration} (libraries : Table Text LibraryId)
    (h : ds.Sublist (store.module i).declarations) :
    (references ds libraries).length ≤ referenceCount store := by
  have hlength : (references ds libraries).length = (ds.flatMap (·.references)).length := by
    simp [references, List.length_flatMap]
  rw [hlength]
  exact ((h.flatMap _).trans (sublist_storedReferences store i)).length_le

theorem mem_storedReferences {d : Declaration} {r : Reference}
    (hd : d ∈ (store.module i).declarations) (hr : r ∈ d.references) :
    r ∈ storedReferences store :=
  (sublist_storedReferences store i).subset (List.mem_flatMap.2 ⟨d, hd, hr⟩)

theorem remaining_dropped {p : Pending} {rest : List Pending} (hpending : s.pending = p :: rest) :
    remaining store { s with pending := rest } < remaining store s := by
  unfold remaining
  rw [hpending, List.length_cons]
  dsimp only
  omega

theorem unseen_le (store : Store) (seen : List Text) : unseen store seen ≤ referenceCount store :=
  List.countP_le_length

/-- Seeing an id for the first time leaves fewer references whose ids have not been seen. -/
theorem unseen_cons_lt {seen : List Text} {r : Reference} (hr : r ∈ storedReferences store)
    (hnew : r.id ∉ seen) : unseen store (r.id :: seen) < unseen store seen := by
  have hmono : ∀ l : List Reference, l.countP (fun x => !(r.id :: seen).contains x.id) ≤
      l.countP (fun x => !seen.contains x.id) := by
    refine fun l => List.countP_mono_left fun x _ hx => ?_
    rw [List.contains_cons, Bool.not_or, Bool.and_eq_true] at hx
    exact hx.2
  obtain ⟨before, after, hsplit⟩ := List.append_of_mem hr
  have hbefore := hmono before
  have hafter := hmono after
  unfold unseen
  rw [hsplit, List.countP_append, List.countP_append, List.countP_cons_of_neg (by simp),
    List.countP_cons_of_pos (by simpa using hnew)]
  omega

/-- An id that is seen for the first time makes up for the references that it adds. -/
theorem remaining_followed {p : Pending} {rest : List Pending} {found ds : List Declaration}
    {libraries : Table Text LibraryId} (hpending : s.pending = p :: rest)
    (hnew : p.reference.id ∉ s.seen) (hp : p.reference ∈ storedReferences store)
    (hds : ds.Sublist (store.module i).declarations) :
    remaining store ⟨found, p.reference.id :: s.seen, references ds libraries ++ rest⟩ <
      remaining store s := by
  have hlength := length_references_le libraries hds
  have hmul := Nat.mul_le_mul_left (referenceCount store) (unseen_cons_lt hp hnew)
  rw [Nat.mul_succ] at hmul
  unfold remaining
  rw [hpending, List.length_append, List.length_cons]
  dsimp only
  omega

theorem remaining_lt_bound (store : Store) (s : Search) : remaining store s < s.bound store := by
  have hunseen := Nat.mul_le_mul_left (referenceCount store) (unseen_le store s.seen)
  have hsquare : referenceCount store * referenceCount store ≤
      (s.pending.length + referenceCount store + 1) * referenceCount store :=
    Nat.mul_le_mul_right _ (by omega)
  unfold remaining bound
  rw [Nat.mul_succ]
  omega

end Remaining

/-! ## The invariant of a search -/

/-- Nothing was visited that should not be; each reference of what was visited is still pending, or
its id was seen and it is allowed; and what was seen was found. -/
structure Traced (s : Store) (roots : List Declaration) (libraries : Table Text LibraryId)
    (r : Search) : Prop where
  pending : ∀ p ∈ r.pending, ∃ d, s.Visits roots libraries d p.libraries ∧
    p.reference ∈ d.references ∧ p.user = d.id
  found : ∀ d ∈ r.found, (∃ t, s.Visits roots libraries d t) ∧ d.id ∉ roots.map (·.id)
  distinct : (r.found.map (·.serial)).Nodup
  followed : ∀ d t, s.Visits roots libraries d t → d ∈ roots ∨ d ∈ r.found → ∀ x ∈ d.references,
    ⟨x, d.id, t⟩ ∈ r.pending ∨
      x.id ∈ r.seen ∧ (x.origin = .imported → s.Allows t d.id x)
  known : ∀ d ∈ roots, d.id ∈ r.seen
  seen : ∀ id ∈ r.seen, id ∈ roots.map (·.id) ∨
    ∃ d t x l i, s.Visits roots libraries d t ∧ x ∈ d.references ∧ x.id = id ∧
      s.Stands t x.path l i ∧ (∃ c ∈ (s.module i).declarations, c.name = x.name) ∧
        ∀ c ∈ (s.module i).declarations, c.name = x.name → c ∈ r.found

section Traced

variable {s : Store} {roots : List Declaration} {libraries : Table Text LibraryId} {r : Search}
  {i : ModuleId}

theorem traced_start (hs : s.Sound) (roots : List Declaration)
    (libraries : Table Text LibraryId) : Traced s roots libraries (start roots libraries) where
  pending p hp := by
    obtain ⟨d, hd, x, hx, rfl⟩ := mem_references.1 hp
    exact ⟨d, .root hd, hx, rfl⟩
  found := nofun
  distinct := List.nodup_nil
  followed d t h hmem x hx := by
    have hd : d ∈ roots := hmem.resolve_right List.not_mem_nil
    rcases h.cases hs with ⟨-, rfl⟩ | ⟨hid, -⟩
    · exact Or.inl (mem_references.2 ⟨d, hd, x, hx, rfl⟩)
    · exact absurd (List.mem_map_of_mem hd) hid
  known d hd := List.mem_map_of_mem hd
  seen id hid := Or.inl hid

theorem Traced.compiled (hs : s.Sound) (hr : s.Ready libraries) (h : Traced s roots libraries r)
    {p : Pending} (hp : p ∈ r.pending) (id : LibraryId) (j : ModuleId)
    (hj : s.Stands p.libraries p.reference.path id j) : s.IsCompiled id := by
  obtain ⟨d, hd, -⟩ := h.pending p hp
  exact hr.compiled id (hj.importable (hd.inSight hs hr)).1

/-- A reference that is dropped refers to what was seen, and an import has been checked. -/
theorem Traced.dropped (hs : s.Sound) (hr : s.Ready libraries) (h : Traced s roots libraries r)
    {p : Pending} {rest : List Pending} (hpending : r.pending = p :: rest)
    (hseen : p.reference.id ∈ r.seen)
    (hcheck : p.reference.origin = .imported → ∃ id ds, Leads s p id ds) :
    Traced s roots libraries { r with pending := rest } where
  pending q hq := h.pending q (hpending ▸ List.mem_cons_of_mem _ hq)
  found := h.found
  distinct := h.distinct
  followed d t hd hmem x hx := by
    rcases h.followed d t hd hmem x hx with hp | hx
    · rw [hpending] at hp
      rcases List.mem_cons.1 hp with rfl | hp
      · refine Or.inr ⟨hseen, fun horigin => ?_⟩
        have hcompiled := h.compiled hs hr (hpending ▸ List.mem_cons_self)
        exact (allows_iff hs hcompiled horigin).2 (hcheck horigin)
      · exact Or.inl hp
    · exact Or.inr hx
  known := h.known
  seen := h.seen

/-- What a reference leads to is visited. -/
theorem Traced.visits (h : Traced s roots libraries r) {p : Pending} (hp : p ∈ r.pending)
    (hnew : p.reference.id ∉ r.seen) {id : LibraryId} {j : ModuleId} {c : Declaration}
    (hj : s.Stands p.libraries p.reference.path id j) (hc : c ∈ (s.module j).declarations)
    (hname : c.name = p.reference.name) :
    s.Visits roots libraries c (s.library id).dependencies ∧
      p.reference.id ∉ roots.map (·.id) := by
  obtain ⟨d, hd, hx, -⟩ := h.pending p hp
  have hid : p.reference.id ∉ roots.map (·.id) := by
    intro hmem
    obtain ⟨e, he, heq⟩ := List.mem_map.1 hmem
    exact hnew (heq ▸ h.known e he)
  exact ⟨.used hd hx hid hj hc hname, hid⟩

/-- The references of all that was looked up take the place of a reference that is followed. -/
theorem Traced.followed_leads (hs : s.Sound) (hr : s.Ready libraries)
    (hroots : ∀ d ∈ roots, d ∈ (s.module i).declarations) (h : Traced s roots libraries r)
    {p : Pending} {rest : List Pending} {id : LibraryId} {ds : List Declaration}
    (hpending : r.pending = p :: rest) (hnew : p.reference.id ∉ r.seen) (hleads : Leads s p id ds) :
    Traced s roots libraries
      { found := ds.foldl addFound r.found
        seen := p.reference.id :: r.seen
        pending := references ds (s.library id).dependencies ++ rest } := by
  have hp : p ∈ r.pending := hpending ▸ List.mem_cons_self
  obtain ⟨j, hj, hne, hds⟩ := hleads.exists_stands
  have hvisits : ∀ c ∈ ds, s.Visits roots libraries c (s.library id).dependencies := by
    intro c hc
    exact (h.visits hp hnew hj ((hds c).1 hc).1 ((hds c).1 hc).2).1
  have hfound : ∀ d ∈ ds.foldl addFound r.found,
      (∃ t, s.Visits roots libraries d t) ∧ d.id ∉ roots.map (·.id) := by
    intro d hd
    rcases mem_foldl_addFound hd with hd | hd
    · exact h.found d hd
    · obtain ⟨hd', hname⟩ := (hds d).1 hd
      refine ⟨⟨_, hvisits d hd⟩, ?_⟩
      rw [hj.id_eq hs hd' hname]
      exact (h.visits hp hnew hj hd' hname).2
  refine ⟨fun q hq => ?_, hfound, nodup_foldl_addFound h.distinct ds,
    fun d t hd hmem x hx => ?_, fun d hd => List.mem_cons_of_mem _ (h.known d hd),
    fun id' hid' => ?_⟩
  · rcases List.mem_append.1 hq with hq | hq
    · obtain ⟨d, hd, x, hx, rfl⟩ := mem_references.1 hq
      exact ⟨d, hvisits d hd, hx, rfl⟩
    · exact h.pending q (hpending ▸ List.mem_cons_of_mem _ hq)
  · have hcases : (d ∈ roots ∨ d ∈ r.found) ∨ d ∈ ds := by
      rcases hmem with hd | hd
      · exact Or.inl (Or.inl hd)
      · exact (mem_foldl_addFound hd).imp_left Or.inr
    rcases hcases with hmem | hmem
    · rcases h.followed d t hd hmem x hx with hq | hq
      · rw [hpending] at hq
        rcases List.mem_cons.1 hq with rfl | hq
        · refine Or.inr ⟨List.mem_cons_self, fun horigin => ?_⟩
          exact (allows_iff hs (h.compiled hs hr hp) horigin).2 ⟨id, ds, hleads⟩
        · exact Or.inl (List.mem_append_right _ hq)
      · exact Or.inr ⟨List.mem_cons_of_mem _ hq.1, hq.2⟩
    · rw [hd.table_unique hs hr (hvisits d hmem)]
      exact Or.inl (List.mem_append_left _ (mem_references.2 ⟨d, hmem, x, hx, rfl⟩))
  · have hsub := subset_foldl_addFound ds r.found
    rcases List.mem_cons.1 hid' with rfl | hid'
    · obtain ⟨d, hd, hx, -⟩ := h.pending p hp
      obtain ⟨c, hc⟩ := List.exists_mem_of_ne_nil ds hne
      refine Or.inr ⟨d, _, p.reference, id, j, hd, hx, rfl, hj, ⟨c, (hds c).1 hc⟩,
        fun c hc hname => ?_⟩
      -- a declaration with the number of `c` was found, and this is `c` itself
      obtain ⟨e, he, hserial⟩ := exists_serial_foldl_addFound r.found ((hds c).2 ⟨hc, hname⟩)
      obtain ⟨⟨t, ht⟩, -⟩ := hfound e he
      obtain ⟨k, hk⟩ := ht.exists_module hs hroots
      exact hs.eq_of_serial hk hc hserial ▸ he
    · refine (h.seen id' hid').imp_right ?_
      rintro ⟨d, t, x, l, k, hd, hx, hid, hk, hc, hall⟩
      exact ⟨d, t, x, l, k, hd, hx, hid, hk, hc, fun c hc hname => hsub c (hall c hc hname)⟩

/-- A name of the own module can always be looked up, if its id is not that of a root. -/
theorem Traced.leads_ambient (hs : s.Sound) (hr : s.Ready libraries)
    (hroots : roots.Perm (s.module i).declarations) (h : Traced s roots libraries r)
    {p : Pending} (hp : p ∈ r.pending) (horigin : p.reference.origin = .ambient)
    (hnew : p.reference.id ∉ r.seen) : ∃ id ds, Leads s p id ds := by
  rw [exists_leads_iff (h.compiled hs hr hp)]
  obtain ⟨d, hd, hx, -⟩ := h.pending p hp
  -- what is in sight in a module is declared at its path
  have hdeclared : ∀ j, d ∈ (s.module j).declarations → p.reference.path = d.path ∧
      ∃ c ∈ (s.module j).declarations, c.name = p.reference.name ∧ c.id = p.reference.id := by
    intro j hdj
    obtain ⟨c, hc, hpath, hname⟩ := (hs.numbered j).declared d hdj _ hx horigin
    refine ⟨?_, c, hc, hname, ?_⟩
    · rw [← hpath, (hs.numbered j).path_eq c hc, (hs.numbered j).path_eq d hdj]
    · rw [Declaration.id, hpath, hname, Reference.id]
  rcases hd.cases hs with ⟨hroot, -⟩ | ⟨-, e, t, -, id, j, he, -, -, -, hj, hdj, heq⟩
  · obtain ⟨-, c, hc, -, hid⟩ := hdeclared i (hroots.mem_iff.1 hroot)
    exact absurd (hid ▸ h.known c (hroots.mem_iff.2 hc)) hnew
  · obtain ⟨hpath, c, hc, hname, -⟩ := hdeclared j hdj
    refine ⟨id, j, ?_, ⟨c, hc, hname⟩, fun himported => ?_⟩
    · rw [hpath, heq]
      exact hj.itself hs hr (he.inSight hs hr)
    · rw [horigin] at himported
      cases himported

theorem Traced.moved (hs : s.Sound) (hr : s.Ready libraries)
    (hroots : ∀ d ∈ roots, d ∈ (s.module i).declarations) (h : Traced s roots libraries r)
    {r' : Search} (hmoved : r.step s = .moved r') :
    Traced s roots libraries r' ∧ remaining s r' < remaining s r := by
  have hstepped := stepped s r
  rw [hmoved] at hstepped
  cases hstepped with
  | dropped hpending hseen hcheck =>
    exact ⟨h.dropped hs hr hpending hseen hcheck, remaining_dropped hpending⟩
  | followed hpending hnew hleads =>
    refine ⟨h.followed_leads hs hr hroots hpending hnew hleads, ?_⟩
    obtain ⟨d, hd, hx, -⟩ := h.pending _ (hpending ▸ List.mem_cons_self)
    obtain ⟨j, hj⟩ := hd.exists_module hs hroots
    obtain ⟨k, hk⟩ := hleads.sublist
    exact remaining_followed hpending hnew (mem_storedReferences hj hx) hk

/-- All libraries are compiled already. -/
theorem Traced.not_needs (hs : s.Sound) (hr : s.Ready libraries) (h : Traced s roots libraries r)
    {id : LibraryId} {r' : Search} : r.step s ≠ .needs id r' := by
  intro hneeds
  have hstepped := stepped s r
  rw [hneeds] at hstepped
  cases hstepped with
  | needs hpending hlibrary hcompiled =>
    obtain ⟨d, hd, -⟩ := h.pending _ (hpending ▸ List.mem_cons_self)
    have hmem := Table.mem_of_get?_eq_some (Pending.library_eq_ok_iff.1 hlibrary).2
    have hid := hr.compiled id ((hd.inSight hs hr).2 _ hmem)
    exact absurd (hid.symm.trans hcompiled) nofun

/-- A search fails only at an import that is not allowed. -/
theorem Traced.not_permits (hs : s.Sound) (hr : s.Ready libraries)
    (hroots : roots.Perm (s.module i).declarations) (h : Traced s roots libraries r) {fault : Fault}
    (hfailed : r.step s = .failed fault) : fault.IsLookup ∧ ¬ s.Permits roots libraries := by
  have hstepped := stepped s r
  rw [hfailed] at hstepped
  cases hstepped with
  | failed hpending hnew hbreaks =>
    rename_i p rest
    have hp : p ∈ r.pending := hpending ▸ List.mem_cons_self
    refine ⟨hbreaks.isLookup, fun hpermits => hbreaks.not_leads ?_⟩
    cases horigin : p.reference.origin with
    | ambient => exact h.leads_ambient hs hr hroots hp horigin (hnew horigin)
    | imported =>
      obtain ⟨d, hd, hx, huser⟩ := h.pending p hp
      have hallows := hpermits d p.libraries hd p.reference hx horigin
      rw [← huser] at hallows
      exact (allows_iff hs (h.compiled hs hr hp) horigin).1 hallows

/-- When nothing is pending, what is declared under an id that was seen was found. -/
theorem Traced.mem_found (hs : s.Sound) (hr : s.Ready libraries)
    (hroots : ∀ d ∈ roots, d ∈ (s.module i).declarations) (h : Traced s roots libraries r)
    {d c : Declaration} {t : Table Text LibraryId} {x : Reference} {id : LibraryId} {j : ModuleId}
    (hd : s.Visits roots libraries d t) (hx : x ∈ d.references) (hseen : x.id ∈ r.seen)
    (hnew : x.id ∉ roots.map (·.id)) (hj : s.Stands t x.path id j)
    (hc : c ∈ (s.module j).declarations) (hname : c.name = x.name) : c ∈ r.found := by
  obtain ⟨d', t', x', id', j', hd', hx', hid, hj', -, hall⟩ := (h.seen _ hseen).resolve_left hnew
  obtain ⟨k, hk⟩ := hd.exists_module hs hroots
  obtain ⟨k', hk'⟩ := hd'.exists_module hs hroots
  obtain ⟨hpath, hxname⟩ := idOf_inj ((hs.numbered k').references d' hk' x' hx')
    ((hs.numbered k).references d hk x hx) hid
  rw [hpath] at hj'
  obtain ⟨-, rfl⟩ := hj'.unique hr (hd'.inSight hs hr) (hd.inSight hs hr) hj
  exact hall c hc (hname.trans hxname.symm)

theorem Traced.visited (hs : s.Sound) (hr : s.Ready libraries)
    (hroots : ∀ d ∈ roots, d ∈ (s.module i).declarations) (h : Traced s roots libraries r)
    (hpending : r.pending = []) {d : Declaration} {t : Table Text LibraryId}
    (hd : s.Visits roots libraries d t) : d ∈ roots ∨ d ∈ r.found := by
  induction hd with
  | root hd => exact Or.inl hd
  | used hd hx hnew hj hc hname ih =>
    have hseen := (h.followed _ _ hd ih _ hx).resolve_left (by simp [hpending])
    exact Or.inr (h.mem_found hs hr hroots hd hx hseen.1 hnew hj hc hname)

/-- When nothing is pending, all imports were allowed, and all that was visited was found. -/
theorem Traced.finished (hs : s.Sound) (hr : s.Ready libraries)
    (hroots : ∀ d ∈ roots, d ∈ (s.module i).declarations) (h : Traced s roots libraries r)
    (hpending : r.pending = []) :
    s.Collects roots libraries r.found ∧ s.Permits roots libraries := by
  have hdone : ∀ d t, s.Visits roots libraries d t → ∀ x ∈ d.references,
      x.id ∈ r.seen ∧ (x.origin = .imported → s.Allows t d.id x) := by
    intro d t hd x hx
    have hmem := h.visited hs hr hroots hpending hd
    exact (h.followed d t hd hmem x hx).resolve_left (by simp [hpending])
  refine ⟨⟨h.distinct, fun id => ⟨fun hid => ?_, ?_⟩, fun d => ⟨h.found d, ?_⟩⟩,
    fun d t hd x hx => (hdone d t hd x hx).2⟩
  · obtain ⟨d, hd, rfl⟩ := List.mem_map.1 hid
    obtain ⟨⟨t, ht⟩, hnew⟩ := h.found d hd
    rcases ht.cases hs with ⟨hroot, -⟩ | ⟨-, e, t', x, -, -, he, hx, hxid, -⟩
    · exact absurd (List.mem_map_of_mem hroot) hnew
    · exact ⟨⟨e, t', he, x, hx, hxid⟩, hnew⟩
  · rintro ⟨⟨d, t, hd, x, hx, rfl⟩, hnew⟩
    have hseen := (hdone d t hd x hx).1
    obtain ⟨d', t', x', id, j, hd', hx', hid, hj, ⟨c, hc, hname⟩, hall⟩ :=
      (h.seen _ hseen).resolve_left hnew
    exact List.mem_map.2 ⟨c, hall c hc hname, (hj.id_eq hs hc hname).trans hid⟩
  · rintro ⟨⟨t, ht⟩, hnew⟩
    refine (h.visited hs hr hroots hpending ht).resolve_left fun hroot => ?_
    exact hnew (List.mem_map_of_mem hroot)

end Traced

end Search

/-! ## The outcome -/

section Outcome

variable {s : Store} {roots : List Declaration} {libraries : Table Text LibraryId} {i : ModuleId}

/-- A search among compiled libraries changes nothing.  It finds all that is visited if all imports
are allowed, and otherwise fails with a fault of looking up. -/
theorem reach_outcome (hs : s.Sound) (hr : s.Ready libraries)
    (hroots : roots.Perm (s.module i).declarations) :
    (∃ found, reach roots libraries s = (.ok found, s) ∧ s.Collects roots libraries found ∧
      s.Permits roots libraries) ∨
    ∃ fault, reach roots libraries s = (.error fault, s) ∧ fault.IsLookup ∧
      ¬ s.Permits roots libraries := by
  have hmem : ∀ d ∈ roots, d ∈ (s.module i).declarations := fun d => hroots.mem_iff.1
  obtain ⟨r, hr', hrun, hends⟩ := Search.run_ends
    (fun r r' h hmoved => Search.Traced.moved hs hr hmem h hmoved)
    (Search.traced_start hs roots libraries)
    (Search.remaining_lt_bound s (Search.start roots libraries))
  have hreach := explore_succ compile s.libraries.size (Search.start roots libraries) s
  rw [hrun] at hreach
  have hstepped := Search.stepped s r
  cases hstep : r.step s with
  | finished found =>
    rw [hstep] at hstepped hreach
    cases hstepped with
    | finished hpending => exact Or.inl ⟨_, hreach, hr'.finished hs hr hmem hpending⟩
  | failed fault =>
    rw [hstep] at hreach
    exact Or.inr ⟨fault, hreach, hr'.not_permits hs hr hroots hstep⟩
  | moved r' => exact absurd hstep (hends r')
  | needs id r' => exact absurd hstep (hr'.not_needs hs hr)

/-- Among compiled libraries, a search for what a module needs returns just if each import of what
is visited is allowed, however else the imported id is reached. -/
theorem reach_returns_iff (hs : s.Session) (hr : s.Ready libraries) (i : ModuleId) :
    (∃ found s', reach (s.module i).declarations libraries s = (.ok found, s')) ↔
      ∀ d t, s.Visits (s.module i).declarations libraries d t →
        ∀ r ∈ d.references, r.origin = .imported → s.Allows t d.id r := by
  have hroots := List.Perm.refl (s.module i).declarations
  rcases reach_outcome hs.sound hr hroots with ⟨found, h, -, hpermits⟩ | ⟨fault, h, -, hnot⟩
  · exact ⟨fun _ => hpermits, fun _ => ⟨found, s, h⟩⟩
  · refine ⟨?_, fun hpermits => absurd hpermits hnot⟩
    rintro ⟨found, s', hok⟩
    rw [h] at hok
    cases hok

end Outcome

/-! ## Libraries that are compiled -/

theorem Store.Importable.lt_size {s : Store} {libraries : Table Text LibraryId} {id : LibraryId}
    (hs : s.Sound) (hlibraries : s.Names libraries) (h : s.Importable libraries id) :
    id < s.libraries.size := by
  cases h with
  | given h => exact (hlibraries _ h).1
  | dependency _ hp => exact (hs.named _ _ hp).1

/-- The two libraries that import from each other, compiled, and a shader. -/
def compiledSample : { s : Store // s.Session } :=
  ⟨(Registry.makeShader sampleShader (compile 0 sampleStore).2).2,
    .shader (.compile session_sampleStore 0) sampleShader⟩

/-- Both libraries are compiled, and the search for what the shader needs returns. -/
theorem compiled_compiledSample :
    (∀ id < compiledSample.1.libraries.size, (compiledSample.1.library id).isCompiled = true) ∧
    (∀ i < compiledSample.1.libraries.size, ∀ j < compiledSample.1.libraries.size,
      (compiledSample.1.library i).name = (compiledSample.1.library j).name → i = j) ∧
    (compiledSample.1.module 2).declarations ≠ [] ∧
    (reach (compiledSample.1.module 2).declarations compiledSample.1.registry.libraries
      compiledSample.1).1.isOk = true := by
  decide +kernel

theorem ready_compiledSample : compiledSample.1.Ready compiledSample.1.registry.libraries := by
  have hs := compiledSample.2.sound
  obtain ⟨hcompiled, hunambiguous, -⟩ := compiled_compiledSample
  refine ⟨hs.registered, fun id h => hcompiled id (h.lt_size hs hs.registered),
    fun id id' h h' => ?_⟩
  exact hunambiguous id (h.lt_size hs hs.registered) id' (h'.lt_size hs hs.registered)

theorem reach_returns_sample :
    compiledSample.1.Ready compiledSample.1.registry.libraries ∧
      (compiledSample.1.module 2).declarations ≠ [] ∧
        ∀ d t, compiledSample.1.Visits (compiledSample.1.module 2).declarations
            compiledSample.1.registry.libraries d t →
          ∀ r ∈ d.references, r.origin = .imported → compiledSample.1.Allows t d.id r := by
  obtain ⟨-, -, hroots, hok⟩ := compiled_compiledSample
  exact ⟨ready_compiledSample, hroots,
    (reach_returns_iff compiledSample.2 ready_compiledSample 2).1 (exists_eq_ok hok)⟩

end ShaderLink
