import Mathlib.Data.List.Nodup
import ShaderLink.Proofs.Compiling

/-!
# What a module needs

A module needs its own declarations, and with a declaration everything that is declared under the
names it refers to (`Store.Needed`).  If libraries are told apart by their names, a search finds
just what a module outside of all libraries needs: `Search.Faithful` is the invariant of its steps
(`Faithful.moved`), which also survives the compilation of further libraries (`Faithful.keeps`), and
`ends_reach` is what holds at the end.
-/

namespace ShaderLink

open LinkM

namespace Store

/-- Different libraries have different names. -/
def Unambiguous (s : Store) : Prop :=
  ∀ i < s.libraries.size, ∀ j < s.libraries.size, (s.library i).name = (s.library j).name → i = j

/-- The declaration stands under the name in the module at the path, in the library to which the
path belongs. -/
def Declares (s : Store) (path name : Text) (c : Declaration) : Prop :=
  ∃ id < s.libraries.size, libraryOf path = .ok (s.library id).name ∧
    ∃ i, (s.library id).modules.get? path = some i ∧ c ∈ (s.module i).declarations ∧ c.name = name

/-- The declaration stands under the name in the module at the path; `m` is a module outside of all
libraries. -/
def Offers (s : Store) (m : Module) (path name : Text) (c : Declaration) : Prop :=
  (path = m.path ∧ c ∈ m.declarations ∧ c.name = name) ∨ s.Declares path name c

/-- What a module needs: its own declarations, and what is declared under the names to which those
that it needs refer. -/
inductive Needed (s : Store) (m : Module) : Declaration → Prop where
  | own {d : Declaration} (h : d ∈ m.declarations) : Needed s m d
  | used {d c : Declaration} {r : Reference} (h : Needed s m d) (hr : r ∈ d.references)
      (hc : s.Offers m r.path r.name c) : Needed s m c

/-- No library has the first segment of the path as its name. -/
def Outside (s : Store) (path : Text) : Prop :=
  ∀ id, (s.library id).name ≠ firstSegment path

/-! ## Libraries that stay as they are -/

section Keeps

variable {s s' : Store} {path name : Text} {id : LibraryId} {c : Declaration} {m : Module}

theorem Unambiguous.keeps {C : LibraryId → Prop} (hu : s.Unambiguous) (h : Keeps C s s') :
    s'.Unambiguous := by
  intro i hi j hj hij
  rw [h.size] at hi hj
  rw [h.name, h.name] at hij
  exact hu i hi j hj hij

theorem Outside.keeps {C : LibraryId → Prop} (ho : s.Outside path) (h : Keeps C s s') :
    s'.Outside path := by
  intro id
  rw [h.name]
  exact ho id

theorem Outside.not_declares (ho : s.Outside path) : ¬ s.Declares path name c := by
  rintro ⟨id, -, hname, -⟩
  exact ho id (libraryOf_eq_ok_iff.1 hname).1.symm

/-- A name that is not empty belongs to one library only. -/
theorem Unambiguous.eq_of_name (hu : s.Unambiguous) (hid : id < s.libraries.size)
    (hne : (s.library id).name ≠ []) {j : LibraryId}
    (h : (s.library j).name = (s.library id).name) : j = id := by
  by_cases hj : j < s.libraries.size
  · exact hu j hj id hid h
  · rw [library_of_size_le s (not_lt.1 hj)] at h
    exact absurd h.symm hne

/-- A module of a library that is compiled is kept. -/
theorem Keeps.module_of_get? (h : Keeps s.IsCompiled s s') (hs : s.Sound) (hu : s.Unambiguous)
    (hid : id < s.libraries.size) (hname : libraryOf path = .ok (s.library id).name)
    (hcompiled : s.IsCompiled id) {i : ModuleId}
    (hi : (s.library id).modules.get? path = some i) : s'.module i = s.module i := by
  obtain ⟨hsegment, hne⟩ := libraryOf_eq_ok_iff.1 hname
  have hpath : path ≠ [] := by
    rintro rfl
    exact hne hsegment.symm
  have hplaced : (s.module i).path = path :=
    (hs.placed id _ (Table.mem_of_get?_eq_some hi)).2 hpath
  apply h.modules i
  · by_contra hlt
    rw [module_of_size_le s (not_lt.1 hlt)] at hplaced
    exact hpath hplaced.symm
  · intro j hj
    rw [hplaced, hsegment] at hj
    rwa [hu.eq_of_name hid hne hj]

theorem Declares.keeps (hs : s.Sound) (hu : s.Unambiguous) (h : Keeps s.IsCompiled s s')
    (hc : s.Declares path name c) : s'.Declares path name c := by
  obtain ⟨id, hid, hname, i, hi, hmem, hcname⟩ := hc
  have hcompiled : s.IsCompiled id := by
    by_contra hidle
    rw [hs.idle id (Bool.not_eq_true _ ▸ hidle)] at hi
    cases hi
  refine ⟨id, h.size.symm ▸ hid, ?_, i, ?_, ?_, hcname⟩
  · rwa [h.name]
  · rwa [h.libraries id hcompiled]
  · rwa [h.module_of_get? hs hu hid hname hcompiled hi]

/-- In a library that was compiled before, no declarations appear. -/
theorem Declares.of_keeps (hs : s.Sound) (hu : s.Unambiguous) (h : Keeps s.IsCompiled s s')
    (hid : id < s.libraries.size) (hname : libraryOf path = .ok (s.library id).name)
    (hcompiled : s.IsCompiled id) (hc : s'.Declares path name c) : s.Declares path name c := by
  obtain ⟨j, -, hj, i, hi, hmem, hcname⟩ := hc
  rw [h.name, hname] at hj
  have hne := (libraryOf_eq_ok_iff.1 hname).2
  obtain rfl : j = id := hu.eq_of_name hid hne (Except.ok.inj hj).symm
  rw [h.libraries j hcompiled] at hi
  rw [h.module_of_get? hs hu hid hname hcompiled hi] at hmem
  exact ⟨j, hid, hname, i, hi, hmem, hcname⟩

theorem Needed.keeps (hs : s.Sound) (hu : s.Unambiguous) (h : Keeps s.IsCompiled s s')
    (hc : s.Needed m c) : s'.Needed m c := by
  induction hc with
  | own hd => exact .own hd
  | used _ hr hc ih => exact .used ih hr (hc.imp_right fun hc => hc.keeps hs hu h)

end Keeps

/-- What is needed stands in some module. -/
theorem Needed.exists_module {s : Store} {i : ModuleId} {d : Declaration}
    (h : s.Needed (s.module i) d) : ∃ j, d ∈ (s.module j).declarations := by
  cases h with
  | own hd => exact ⟨i, hd⟩
  | used _ _ hc =>
    rcases hc with ⟨-, hc, -⟩ | ⟨-, -, -, j, -, hc, -⟩
    · exact ⟨i, hc⟩
    · exact ⟨j, hc⟩

/-- A declaration is determined by its number. -/
theorem Sound.eq_of_serial {s : Store} (hs : s.Sound) {i j : ModuleId} {d e : Declaration}
    (hd : d ∈ (s.module i).declarations) (he : e ∈ (s.module j).declarations)
    (h : d.serial = e.serial) : d = e := by
  obtain rfl := hs.apart i j d hd e he h
  exact List.inj_on_of_nodup_map (hs.numbered i).distinct hd he h

end Store

open Store

/-! ## Adding what was found -/

namespace Search

section AddFound

variable {found : List Declaration} {d : Declaration}

theorem subset_addFound (found : List Declaration) (d : Declaration) :
    ∀ e ∈ found, e ∈ addFound found d := by
  intro e he
  unfold addFound
  split
  · exact he
  · exact List.mem_append_left _ he

theorem mem_addFound {e : Declaration} (h : e ∈ addFound found d) : e ∈ found ∨ e = d := by
  unfold addFound at h
  split at h
  · exact Or.inl h
  · exact (List.mem_append.1 h).imp_right List.mem_singleton.1

theorem exists_serial_addFound (found : List Declaration) (d : Declaration) :
    ∃ e ∈ addFound found d, e.serial = d.serial := by
  unfold addFound
  split
  · rename_i h
    obtain ⟨e, he, hserial⟩ := List.any_eq_true.1 h
    exact ⟨e, he, beq_iff_eq.1 hserial⟩
  · exact ⟨d, by simp, rfl⟩

theorem nodup_addFound (h : (found.map (·.serial)).Nodup) (d : Declaration) :
    ((addFound found d).map (·.serial)).Nodup := by
  unfold addFound
  split
  · exact h
  · rename_i hnew
    rw [List.map_append, List.nodup_append]
    refine ⟨h, List.nodup_singleton _, ?_⟩
    intro n hn k hk hnk
    obtain ⟨e, he, rfl⟩ := List.mem_map.1 hn
    rw [List.map_singleton, List.mem_singleton] at hk
    exact hnew (List.any_eq_true.2 ⟨e, he, beq_iff_eq.2 (hnk.trans hk)⟩)

variable {ds : List Declaration}

theorem subset_foldl_addFound (ds found : List Declaration) :
    ∀ e ∈ found, e ∈ ds.foldl addFound found := by
  induction ds generalizing found with
  | nil => exact fun _ he => he
  | cons d ds ih => exact fun e he => ih _ e (subset_addFound found d e he)

theorem mem_foldl_addFound {e : Declaration} (h : e ∈ ds.foldl addFound found) :
    e ∈ found ∨ e ∈ ds := by
  induction ds generalizing found with
  | nil => exact Or.inl h
  | cons d ds ih =>
    rcases ih h with h | h
    · rcases mem_addFound h with h | rfl
      · exact Or.inl h
      · exact Or.inr List.mem_cons_self
    · exact Or.inr (List.mem_cons_of_mem _ h)

theorem exists_serial_foldl_addFound (found : List Declaration) (hd : d ∈ ds) :
    ∃ e ∈ ds.foldl addFound found, e.serial = d.serial := by
  induction ds generalizing found with
  | nil => cases hd
  | cons c ds ih =>
    rcases List.mem_cons.1 hd with rfl | hd
    · obtain ⟨e, he, hserial⟩ := exists_serial_addFound found d
      exact ⟨e, subset_foldl_addFound ds _ e he, hserial⟩
    · exact ih _ hd

theorem nodup_foldl_addFound (h : (found.map (·.serial)).Nodup) (ds : List Declaration) :
    ((ds.foldl addFound found).map (·.serial)).Nodup := by
  induction ds generalizing found with
  | nil => exact h
  | cons d ds ih => exact ih (nodup_addFound h d)

end AddFound

/-! ## The invariant of a search -/

/-- All that is declared under a name in a module of a compiled library was found. -/
structure Reached (s : Store) (found : List Declaration) (path name : Text) : Prop where
  compiled : ∃ id < s.libraries.size, libraryOf path = .ok (s.library id).name ∧ s.IsCompiled id
  declared : ∃ c, s.Declares path name c
  found : ∀ c, s.Declares path name c → c ∈ found

/-- A search for what the module `m` needs has found nothing else; and what was found is complete
but for the references that are still pending. -/
structure Faithful (s : Store) (m : Module) (r : Search) : Prop where
  names : ∀ p ∈ r.pending, s.Names p.libraries
  pending : ∀ p ∈ r.pending, ∃ e, s.Needed m e ∧ p.reference ∈ e.references
  found : ∀ d ∈ r.found, s.Needed m d
  distinct : (r.found.map (·.serial)).Nodup
  followed : ∀ e, e ∈ m.declarations ∨ e ∈ r.found → ∀ t ∈ e.references,
    t.id ∈ r.seen ∨ ∃ p ∈ r.pending, p.reference = t
  reached : ∀ id ∈ r.seen, (∃ d ∈ m.declarations, d.id = id) ∨
    ∃ path name, IsSegment name ∧ id = idOf path name ∧ Reached s r.found path name

variable {s : Store} {m : Module} {r : Search}

theorem faithful_start {libraries : Table Text LibraryId} (h : s.Names libraries) :
    Faithful s m (start m.declarations libraries) where
  names p hp := by
    obtain ⟨d, -, t, -, rfl⟩ := mem_references.1 hp
    exact h
  pending p hp := by
    obtain ⟨d, hd, t, ht, rfl⟩ := mem_references.1 hp
    exact ⟨d, .own hd, ht⟩
  found := nofun
  distinct := List.nodup_nil
  followed e he t ht := by
    rcases he with he | he
    · exact Or.inr ⟨_, mem_references.2 ⟨e, he, t, ht, rfl⟩, rfl⟩
    · cases he
  reached id hid := Or.inl (List.mem_map.1 hid)

theorem Reached.mono {found found' : List Declaration} {path name : Text}
    (h : Reached s found path name) (hfound : ∀ d ∈ found, d ∈ found') :
    Reached s found' path name :=
  ⟨h.compiled, h.declared, fun c hc => hfound c (h.found c hc)⟩

/-- A lookup gives all declarations of the name, unless an export is missing or there are none. -/
theorem lookup_eq_ok_iff {name user : Text} {origin : Origin} {ds : List Declaration} :
    m.lookup name origin user = .ok ds ↔
      (origin = .imported → m.checkExport name user = .ok ()) ∧ ds ≠ [] ∧
        ds = m.declarations.filter (·.name == name) := by
  unfold Module.lookup
  generalize m.declarations.filter (·.name == name) = found
  have hfound : (found ≠ [] ∧ found = ds) ↔ ds ≠ [] ∧ ds = found :=
    ⟨fun h => ⟨h.2 ▸ h.1, h.2.symm⟩, fun h => ⟨h.2 ▸ h.1, h.2.symm⟩⟩
  by_cases ho : origin = .imported
  · rw [if_pos ho]
    cases m.checkExport name user with
    | error fault =>
      constructor
      · intro h
        cases h
      · intro h
        cases h.1 ho
    | ok _ =>
      rw [← hfound]
      cases found <;> simp [bind, Except.bind, pure, Except.pure, throw, throwThe,
        MonadExceptOf.throw]
  · rw [if_neg ho, ← hfound]
    cases found <;> simp [ho, pure, Except.pure, throw, throwThe,
      MonadExceptOf.throw]

/-- What a lookup returns is all that is declared under the name. -/
theorem mem_lookup_iff (hu : s.Unambiguous) {id : LibraryId} {path name user : Text}
    {origin : Origin} {ds : List Declaration} (hid : id < s.libraries.size)
    (hname : libraryOf path = .ok (s.library id).name)
    (h : s.lookup (s.library id) path name origin user = .ok ds) :
    ds ≠ [] ∧ ∀ c, c ∈ ds ↔ s.Declares path name c := by
  unfold Store.lookup at h
  cases hi : (s.library id).modules.get? path with
  | none =>
    rw [hi] at h
    cases h
  | some i =>
    rw [hi] at h
    have hds := (lookup_eq_ok_iff.1 h).2
    refine ⟨hds.1, fun c => ?_⟩
    rw [hds.2, List.mem_filter, beq_iff_eq]
    constructor
    · rintro ⟨hmem, hcname⟩
      exact ⟨id, hid, hname, i, hi, hmem, hcname⟩
    · rintro ⟨j, -, hj, i', hi', hmem, hcname⟩
      rw [hname] at hj
      have hne := (libraryOf_eq_ok_iff.1 hname).2
      obtain rfl := hu.eq_of_name hid hne (Except.ok.inj hj).symm
      rw [hi] at hi'
      exact ⟨Option.some.inj hi' ▸ hmem, hcname⟩

variable {i : ModuleId}

theorem Faithful.isSegment (hs : s.Sound) (h : Faithful s (s.module i) r) {p : Pending}
    (hp : p ∈ r.pending) : IsSegment p.reference.name := by
  obtain ⟨e, he, hr⟩ := h.pending p hp
  obtain ⟨j, hj⟩ := he.exists_module
  exact (hs.numbered j).references e hj _ hr

theorem Faithful.dropped (h : Faithful s m r) {p : Pending} {rest : List Pending}
    (hpending : r.pending = p :: rest) (hseen : p.reference.id ∈ r.seen) :
    Faithful s m { r with pending := rest } where
  names q hq := h.names q (hpending ▸ List.mem_cons_of_mem _ hq)
  pending q hq := h.pending q (hpending ▸ List.mem_cons_of_mem _ hq)
  found := h.found
  distinct := h.distinct
  followed e he t ht := by
    rcases h.followed e he t ht with ht | ⟨q, hq, rfl⟩
    · exact Or.inl ht
    · rw [hpending] at hq
      rcases List.mem_cons.1 hq with rfl | hq
      · exact Or.inl hseen
      · exact Or.inr ⟨q, hq, rfl⟩
  reached := h.reached

theorem Faithful.followed_lookup (hs : s.Sound) (hu : s.Unambiguous)
    (h : Faithful s (s.module i) r) {p : Pending} {rest : List Pending} {id : LibraryId}
    {ds : List Declaration} (hpending : r.pending = p :: rest) (hleads : Leads s p id ds) :
    Faithful s (s.module i)
      { found := ds.foldl addFound r.found
        seen := p.reference.id :: r.seen
        pending := references ds (s.library id).dependencies ++ rest } := by
  have hp : p ∈ r.pending := hpending ▸ List.mem_cons_self
  have hrest : ∀ q ∈ rest, q ∈ r.pending := fun q hq => hpending ▸ List.mem_cons_of_mem _ hq
  obtain ⟨hid, hname⟩ := Pending.name_library (h.names p hp) hleads.library
  have hof : libraryOf p.reference.path = .ok (s.library id).name :=
    libraryOf_eq_ok_iff.2 ⟨hname.symm, hname ▸ (Pending.library_eq_ok_iff.1 hleads.library).1⟩
  obtain ⟨hne, hds⟩ := mem_lookup_iff hu hid hof hleads.lookup
  have hneeded : ∀ d ∈ ds, s.Needed (s.module i) d := by
    intro d hd
    obtain ⟨e, he, hr⟩ := h.pending p hp
    exact .used he hr (Or.inr ((hds d).1 hd))
  have hfound : ∀ d ∈ ds.foldl addFound r.found, s.Needed (s.module i) d := by
    intro d hd
    rcases mem_foldl_addFound hd with hd | hd
    · exact h.found d hd
    · exact hneeded d hd
  refine ⟨fun q hq => ?_, fun q hq => ?_, hfound, nodup_foldl_addFound h.distinct ds,
    fun e he t ht => ?_, fun id' hid' => ?_⟩
  · rcases List.mem_append.1 hq with hq | hq
    · obtain ⟨d, -, t, -, rfl⟩ := mem_references.1 hq
      exact hs.named id
    · exact h.names q (hrest q hq)
  · rcases List.mem_append.1 hq with hq | hq
    · obtain ⟨d, hd, t, ht, rfl⟩ := mem_references.1 hq
      exact ⟨d, hneeded d hd, ht⟩
    · exact h.pending q (hrest q hq)
  · have hcases : (e ∈ (s.module i).declarations ∨ e ∈ r.found) ∨ e ∈ ds := by
      rcases he with he | he
      · exact Or.inl (Or.inl he)
      · exact (mem_foldl_addFound he).imp_left Or.inr
    rcases hcases with he | he
    · rcases h.followed e he t ht with ht | ⟨q, hq, rfl⟩
      · exact Or.inl (List.mem_cons_of_mem _ ht)
      · rw [hpending] at hq
        rcases List.mem_cons.1 hq with rfl | hq
        · exact Or.inl List.mem_cons_self
        · exact Or.inr ⟨q, List.mem_append_right _ hq, rfl⟩
    · refine Or.inr ⟨⟨t, e.id, (s.library id).dependencies⟩, List.mem_append_left _ ?_, rfl⟩
      exact mem_references.2 ⟨e, he, t, ht, rfl⟩
  · rcases List.mem_cons.1 hid' with rfl | hid'
    · refine Or.inr ⟨p.reference.path, p.reference.name, h.isSegment hs hp, rfl,
        ⟨id, hid, hof, hleads.compiled⟩, ?_, fun c hc => ?_⟩
      · obtain ⟨c, hc⟩ := List.exists_mem_of_ne_nil ds hne
        exact ⟨c, (hds c).1 hc⟩
      · -- a declaration with the number of `c` was found, and this is `c` itself
        obtain ⟨d, hd, hserial⟩ := exists_serial_foldl_addFound r.found ((hds c).2 hc)
        obtain ⟨j, hj⟩ := (hfound d hd).exists_module
        obtain ⟨k, hk⟩ := (hneeded c ((hds c).2 hc)).exists_module
        exact hs.eq_of_serial hj hk hserial ▸ hd
    · refine (h.reached id' hid').imp_right ?_
      rintro ⟨path, name, hsegment, heq, hreached⟩
      exact ⟨path, name, hsegment, heq, hreached.mono (subset_foldl_addFound ds r.found)⟩

theorem Faithful.moved (hs : s.Sound) (hu : s.Unambiguous) (h : Faithful s (s.module i) r)
    {r' : Search} (hr : r.step s = .moved r') : Faithful s (s.module i) r' := by
  have hstepped := stepped s r
  rw [hr] at hstepped
  cases hstepped with
  | dropped hpending hseen => exact h.dropped hpending hseen
  | followed hpending hseen hleads => exact h.followed_lookup hs hu hpending hleads

theorem Faithful.keeps (hs : s.Sound) (hu : s.Unambiguous) {s' : Store}
    (hk : Keeps s.IsCompiled s s') (h : Faithful s m r) : Faithful s' m r where
  names p hp := hk.names (h.names p hp)
  pending p hp := by
    obtain ⟨e, he, hr⟩ := h.pending p hp
    exact ⟨e, he.keeps hs hu hk, hr⟩
  found d hd := (h.found d hd).keeps hs hu hk
  distinct := h.distinct
  followed := h.followed
  reached id hid := by
    refine (h.reached id hid).imp_right ?_
    rintro ⟨path, name, hsegment, heq, ⟨j, hj, hname, hcompiled⟩, ⟨c, hc⟩, hfound⟩
    have hkept := hk.isCompiled hcompiled hcompiled
    refine ⟨path, name, hsegment, heq, ⟨j, hk.size.symm ▸ hj, ?_, hkept⟩,
      ⟨c, hc.keeps hs hu hk⟩, fun c hc => ?_⟩
    · rwa [hk.name]
    · exact hfound c (hc.of_keeps hs hu hk hj hname hcompiled)

end Search

theorem Store.Outside.lt_size {s : Store} {i : ModuleId} (ho : s.Outside (s.module i).path) :
    i < s.modules.size := by
  by_contra hlt
  rw [module_of_size_le s (not_lt.1 hlt)] at ho
  apply ho s.libraries.size
  rw [library_of_size_le s le_rfl]
  rfl

theorem Store.Keeps.module_outside {C : LibraryId → Prop} {s s' : Store} (h : Keeps C s s')
    {i : ModuleId} (ho : s.Outside (s.module i).path) : s'.module i = s.module i :=
  h.modules i ho.lt_size fun id hid => absurd hid (ho id)

/-- What a module outside of all libraries needs is found, and nothing else. -/
theorem ends_reach {s : Store} {i : ModuleId} (hs : s.Sound) (hu : s.Unambiguous)
    (ho : s.Outside (s.module i).path) :
    Ends (fun found s' => Advances True s.IsCompiled s s' ∧
      ∃ seen, Search.Faithful s' (s'.module i) ⟨found, seen, []⟩) Sound
      (reach (s.module i).declarations (s.librariesOf (s.module i).scope) s) := by
  unfold reach reachWith
  apply ends_bind.2
  apply ends_get.2
  refine ends_explore (I := fun st r => Advances True s.IsCompiled s st ∧
    Search.Faithful st (st.module i) r) ?_ ?_ (fun st r h hpending => ?_) (fun _ _ h => h.1.1) ?_
  · rintro st r r' ⟨hst, hfaithful⟩ hr
    exact ⟨hst, hfaithful.moved hst.1 (hu.keeps (hst.2 trivial)) hr⟩
  · rintro st r id ⟨hst, hfaithful⟩ hr
    have hstepped := Search.stepped st r
    rw [hr] at hstepped
    cases hstepped with
    | needs hpending hlibrary hcompiled =>
      rename_i p rest
      have hp := hfaithful.names p (hpending ▸ List.mem_cons_self)
      have hkeeps := hst.2 trivial
      -- no library that may be compiled now has the name under which the module stands
      have hout : st.Outside (st.module i).path := by
        rw [hkeeps.module_outside ho]
        exact ho.keeps hkeeps
      refine (compiles_compile id st hst.1).imp fun _ st' hst' => ?_
      have hkeeps' := hst'.2 (Pending.isLibraryName hp hlibrary)
      refine ⟨⟨hst'.1, fun _ => hkeeps.compiling hkeeps'⟩, ?_⟩
      rw [hkeeps'.module_outside hout]
      exact hfaithful.keeps hst.1 (hu.keeps hkeeps) hkeeps'
  · refine ⟨h.1, r.seen, ?_⟩
    rw [← hpending]
    exact h.2
  · exact ⟨hs.advances, Search.faithful_start (hs.librariesOf (hs.plain i))⟩

end ShaderLink
