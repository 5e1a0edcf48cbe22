import Mathlib.Data.List.Forall2
import ShaderLink.Proofs.Visiting

/-!
# References in another order

What a search visits does not depend on the order of the roots, nor on that of the references of any
declaration (`Store.Reordered`).  So neither what is found nor whether the search returns depends on
these orders, although the stack of pending references does; `reach_exact` says what is found.
-/

namespace ShaderLink

/-- The same declaration with its references in another order. -/
structure Declaration.Reordered (d d' : Declaration) : Prop where
  references : d.references.Perm d'.references
  same : d' = { d with references := d'.references }

namespace Declaration.Reordered

variable {d d' : Declaration}

theorem symm (h : d.Reordered d') : d'.Reordered d := by
  refine ⟨h.references.symm, ?_⟩
  rw [h.same]

theorem name_eq (h : d.Reordered d') : d'.name = d.name := by rw [h.same]

theorem path_eq (h : d.Reordered d') : d'.path = d.path := by rw [h.same]

theorem serial_eq (h : d.Reordered d') : d'.serial = d.serial := by rw [h.same]

theorem id_eq (h : d.Reordered d') : d'.id = d.id := by
  rw [Declaration.id, h.path_eq, h.name_eq, Declaration.id]

end Declaration.Reordered

/-- The same declarations in any order, each with its references in any order. -/
def SameRoots (roots roots' : List Declaration) : Prop :=
  (∀ d ∈ roots, ∃ d' ∈ roots', d.Reordered d') ∧ ∀ d' ∈ roots', ∃ d ∈ roots, d'.Reordered d

namespace SameRoots

variable {roots roots' : List Declaration}

theorem symm (h : SameRoots roots roots') : SameRoots roots' roots := ⟨h.2, h.1⟩

theorem mem_ids (h : SameRoots roots roots') {id : Text} (hid : id ∈ roots.map (·.id)) :
    id ∈ roots'.map (·.id) := by
  obtain ⟨d, hd, rfl⟩ := List.mem_map.1 hid
  obtain ⟨d', hd', hdd⟩ := h.1 d hd
  exact List.mem_map.2 ⟨d', hd', hdd.id_eq⟩

end SameRoots

/-- The same module with the references of its declarations in another order. -/
structure Module.Reordered (m m' : Module) : Prop where
  declarations : List.Forall₂ Declaration.Reordered m.declarations m'.declarations
  same : m' = { m with declarations := m'.declarations }

theorem Module.Reordered.symm {m m' : Module} (h : m.Reordered m') : m'.Reordered m := by
  refine ⟨List.Forall₂.flip (h.declarations.imp fun _ _ hd => hd.symm), ?_⟩
  rw [h.same]

theorem Module.Reordered.exists_mem {m m' : Module} (h : m.Reordered m') {d : Declaration}
    (hd : d ∈ m.declarations) : ∃ d' ∈ m'.declarations, d.Reordered d' := by
  obtain ⟨n, hn, rfl⟩ := List.mem_iff_getElem.1 hd
  obtain ⟨hlength, hall⟩ := List.forall₂_iff_get.1 h.declarations
  exact ⟨_, List.getElem_mem (hlength ▸ hn), hall n hn (hlength ▸ hn)⟩

/-- The same store with the references of all declarations in another order. -/
structure Store.Reordered (s s' : Store) : Prop where
  modules : ∀ i, (s.module i).Reordered (s'.module i)
  same : s' = { s with modules := s'.modules }

open Store

namespace Store.Reordered

variable {s s' : Store} {roots roots' : List Declaration} {libraries t : Table Text LibraryId}
  {path : Text} {id : LibraryId} {i : ModuleId}

theorem symm (h : s.Reordered s') : s'.Reordered s := by
  refine ⟨fun i => (h.modules i).symm, ?_⟩
  rw [h.same]

theorem libraries_eq (h : s.Reordered s') : s'.libraries = s.libraries := by rw [h.same]

theorem library_eq (h : s.Reordered s') : s'.library = s.library := by
  funext id
  rw [Store.library, Store.library, h.libraries_eq]

theorem names_eq (h : s.Reordered s') : s'.Names = s.Names := by
  funext t
  rw [Names, Names, h.libraries_eq, h.library_eq]

theorem numbered (h : s.Reordered s') {bound : Nat}
    (hs : Numbered (s.module i).path (s.module i).declarations bound) :
    Numbered (s'.module i).path (s'.module i).declarations bound := by
  have hpath : (s'.module i).path = (s.module i).path := by rw [(h.modules i).same]
  have hback : ∀ d' ∈ (s'.module i).declarations,
      ∃ d ∈ (s.module i).declarations, d'.Reordered d := fun _ => (h.modules i).symm.exists_mem
  refine ⟨fun d' hd' => ?_, fun d' hd' => ?_, fun d' hd' r hr => ?_, fun d' hd' r hr horigin => ?_,
    fun d' hd' => ?_, ?_⟩
  · obtain ⟨d, hd, hdd⟩ := hback d' hd'
    rw [hpath, ← hdd.path_eq, hs.path_eq d hd]
  · obtain ⟨d, hd, hdd⟩ := hback d' hd'
    exact hdd.name_eq ▸ hs.name d hd
  · obtain ⟨d, hd, hdd⟩ := hback d' hd'
    exact hs.references d hd r (hdd.references.mem_iff.1 hr)
  · obtain ⟨d, hd, hdd⟩ := hback d' hd'
    obtain ⟨c, hc, hcpath, hcname⟩ := hs.declared d hd r (hdd.references.mem_iff.1 hr) horigin
    obtain ⟨c', hc', hcc⟩ := (h.modules i).exists_mem hc
    exact ⟨c', hc', hcc.path_eq.trans hcpath, hcc.name_eq.trans hcname⟩
  · obtain ⟨d, hd, hdd⟩ := hback d' hd'
    exact hdd.serial_eq ▸ hs.serial d hd
  · have hserials : (s'.module i).declarations.map (·.serial) =
        (s.module i).declarations.map (·.serial) := by
      rw [← List.forall₂_eq_eq_eq, List.forall₂_map_left_iff, List.forall₂_map_right_iff]
      exact (h.modules i).symm.declarations.imp fun _ _ hd => hd.serial_eq.symm
    exact hserials ▸ hs.distinct

theorem sound (h : s.Reordered s') (hs : s.Sound) : s'.Sound where
  numbered i := by
    have hnext : s'.nextSerial = s.nextSerial := by rw [h.same]
    exact hnext ▸ h.numbered (hs.numbered i)
  apart i j d' hd' e' he' heq := by
    obtain ⟨d, hd, hdd⟩ := (h.modules i).symm.exists_mem hd'
    obtain ⟨e, he, hee⟩ := (h.modules j).symm.exists_mem he'
    exact hs.apart i j d hd e he ((hdd.serial_eq.trans heq).trans hee.serial_eq.symm)
  named := by
    rw [h.library_eq, h.names_eq]
    exact hs.named
  itself := by
    rw [h.libraries_eq, h.library_eq]
    exact hs.itself
  registered := by
    have hregistry : s'.registry = s.registry := by rw [h.same]
    rw [hregistry, h.names_eq]
    exact hs.registered
  plain i := by
    have hscope : (s'.module i).scope = (s.module i).scope := by rw [(h.modules i).same]
    have hplain : s'.Plain = s.Plain := by
      funext scope
      rw [Plain, Plain, h.names_eq]
    rw [hscope, hplain]
    exact hs.plain i
  plugins := by
    rw [h.library_eq]
    exact hs.plugins
  registryPlugins := by
    have hregistry : s'.registry = s.registry := by rw [h.same]
    rw [hregistry]
    exact hs.registryPlugins
  placed id p hp := by
    have hpath : (s'.module p.2).path = (s.module p.2).path := by rw [(h.modules p.2).same]
    rw [h.library_eq] at hp ⊢
    rw [hpath]
    exact hs.placed id p hp
  idle := by
    rw [h.library_eq]
    exact hs.idle

theorem importable (h : s.Reordered s') (hid : s'.Importable libraries id) :
    s.Importable libraries id := by
  induction hid with
  | given hp => exact .given hp
  | dependency _ hp ih =>
    rw [h.library_eq] at hp
    exact .dependency ih hp

theorem ready (h : s.Reordered s') (hr : s.Ready libraries) : s'.Ready libraries where
  names := by
    rw [h.names_eq]
    exact hr.names
  compiled id hid := by
    rw [IsCompiled, h.library_eq]
    exact hr.compiled id (h.importable hid)
  apart id id' hid hid' hname := by
    rw [h.library_eq] at hname
    exact hr.apart id id' (h.importable hid) (h.importable hid') hname

theorem stands (h : s.Reordered s') (hi : s.Stands t path id i) : s'.Stands t path id i :=
  ⟨hi.named, hi.library, h.library_eq ▸ hi.module⟩

theorem allows (h : s.Reordered s') {user : Text} {r : Reference} (hr : s.Allows t user r) :
    s'.Allows t user r := by
  obtain ⟨id, i, e, hi, ⟨c, hc, hname⟩, he⟩ := hr
  have hexports : (s'.module i).exports = (s.module i).exports := by rw [(h.modules i).same]
  obtain ⟨c', hc', hcc⟩ := (h.modules i).exists_mem hc
  exact ⟨id, i, e, h.stands hi, ⟨c', hc', hcc.name_eq.trans hname⟩, hexports ▸ he⟩

/-! ## Visiting in another order -/

theorem sameRoots (h : s.Reordered s') (hroots : roots.Perm (s.module i).declarations)
    (hroots' : roots'.Perm (s'.module i).declarations) : SameRoots roots roots' := by
  constructor
  · intro d hd
    obtain ⟨d', hd', hdd⟩ := (h.modules i).exists_mem (hroots.mem_iff.1 hd)
    exact ⟨d', hroots'.mem_iff.2 hd', hdd⟩
  · intro d' hd'
    obtain ⟨d, hd, hdd⟩ := (h.modules i).symm.exists_mem (hroots'.mem_iff.1 hd')
    exact ⟨d, hroots.mem_iff.2 hd, hdd⟩

theorem visits (h : s.Reordered s') (hroots : SameRoots roots roots') {d : Declaration}
    (hd : s.Visits roots libraries d t) :
    ∃ d', d.Reordered d' ∧ s'.Visits roots' libraries d' t := by
  induction hd with
  | root hd =>
    obtain ⟨d', hd', hdd⟩ := hroots.1 _ hd
    exact ⟨d', hdd, .root hd'⟩
  | used _ hr hnew hi hc hname ih =>
    obtain ⟨d', hdd, hd'⟩ := ih
    obtain ⟨c', hc', hcc⟩ := (h.modules _).exists_mem hc
    refine ⟨c', hcc, ?_⟩
    rw [← h.library_eq]
    exact .used hd' (hdd.references.mem_iff.1 hr) (fun hid => hnew (hroots.symm.mem_ids hid))
      (h.stands hi) hc' (hcc.name_eq.trans hname)

theorem permits (h : s.Reordered s') (hroots : SameRoots roots roots')
    (hp : s.Permits roots libraries) : s'.Permits roots' libraries := by
  intro d' t hd' r hr horigin
  obtain ⟨d, hdd, hd⟩ := h.symm.visits hroots.symm hd'
  have hallows := hp d t hd r (hdd.references.mem_iff.1 hr) horigin
  rw [hdd.id_eq] at hallows
  exact h.allows hallows

theorem serial_mem (h : s.Reordered s') (hroots : SameRoots roots roots')
    {found found' : List Declaration} (hfound : s.Collects roots libraries found)
    (hfound' : s'.Collects roots' libraries found') {n : Nat} (hn : n ∈ found.map (·.serial)) :
    n ∈ found'.map (·.serial) := by
  obtain ⟨d, hd, rfl⟩ := List.mem_map.1 hn
  obtain ⟨⟨t, ht⟩, hnew⟩ := (hfound.mem_iff d).1 hd
  obtain ⟨d', hdd, hd'⟩ := h.visits hroots ht
  refine List.mem_map.2 ⟨d', (hfound'.mem_iff d').2 ⟨⟨t, hd'⟩, fun hid => ?_⟩, hdd.serial_eq⟩
  exact hnew (hdd.id_eq ▸ hroots.symm.mem_ids hid)

theorem serials_perm (h : s.Reordered s') (hroots : SameRoots roots roots')
    {found found' : List Declaration} (hfound : s.Collects roots libraries found)
    (hfound' : s'.Collects roots' libraries found') :
    (found.map (·.serial)).Perm (found'.map (·.serial)) :=
  (List.perm_ext_iff_of_nodup hfound.once hfound'.once).2 fun _ =>
    ⟨h.serial_mem hroots hfound hfound', h.symm.serial_mem hroots.symm hfound' hfound⟩

end Store.Reordered

/-! ## The outcome -/

/-- Two searches agree: both fail, or both find declarations with the same numbers. -/
inductive SameOutcome :
    Except Fault (List Declaration) → Except Fault (List Declaration) → Prop where
  | found {found found' : List Declaration}
      (h : (found.map (·.serial)).Perm (found'.map (·.serial))) :
      SameOutcome (.ok found) (.ok found')
  | failed (fault fault' : Fault) : SameOutcome (.error fault) (.error fault')

section Outcome

variable {s : Store} {libraries : Table Text LibraryId}

/-- Among compiled libraries, a search for what a module needs ends.  Either a lookup fails, or the
search finds just what is visited beside the roots, each declaration once.  Other orders of the
roots and of references give the same outcome. -/
theorem reach_exact (hs : s.Session) (hr : s.Ready libraries) (i : ModuleId) :
    ((∃ found, reach (s.module i).declarations libraries s = (.ok found, s) ∧
        s.Collects (s.module i).declarations libraries found) ∨
      ∃ fault, reach (s.module i).declarations libraries s = (.error fault, s) ∧ fault.IsLookup) ∧
    ∀ s' roots', s.Reordered s' → roots'.Perm (s'.module i).declarations →
      SameOutcome (reach (s.module i).declarations libraries s).1
        (reach roots' libraries s').1 := by
  have hroots := List.Perm.refl (s.module i).declarations
  have houtcome := reach_outcome hs.sound hr hroots
  refine ⟨houtcome.imp (fun ⟨found, h, hfound, _⟩ => ⟨found, h, hfound⟩)
    (fun ⟨fault, h, hfault, _⟩ => ⟨fault, h, hfault⟩), fun s' roots' h hroots' => ?_⟩
  have hsame := h.sameRoots hroots hroots'
  have houtcome' := reach_outcome (h.sound hs.sound) (h.ready hr) hroots'
  rcases houtcome with ⟨found, hok, hfound, hpermits⟩ | ⟨fault, herror, -, hnot⟩ <;>
    rcases houtcome' with ⟨found', hok', hfound', hpermits'⟩ | ⟨fault', herror', -, hnot'⟩
  · rw [hok, hok']
    exact .found (h.serials_perm hsame hfound hfound')
  · exact absurd (h.permits hsame hpermits) hnot'
  · exact absurd (h.symm.permits hsame.symm hpermits') hnot
  · rw [herror, herror']
    exact .failed fault fault'

end Outcome

/-- The declaration with its references in the opposite order. -/
def Declaration.reversed (d : Declaration) : Declaration :=
  { d with references := d.references.reverse }

/-- The store with the references of all declarations in the opposite order. -/
def Store.reversed (s : Store) : Store :=
  { s with modules := s.modules.map fun m =>
      { m with declarations := m.declarations.map Declaration.reversed } }

theorem Store.reordered_reversed (s : Store) : s.Reordered s.reversed := by
  refine ⟨fun i => ?_, rfl⟩
  have hmodule : s.reversed.module i =
      { s.module i with declarations := (s.module i).declarations.map Declaration.reversed } := by
    by_cases hi : i < s.modules.size
    · simp [Store.module, Store.reversed, hi]
    · have hle : s.modules.size ≤ i := Nat.le_of_not_lt hi
      have hle' : s.reversed.modules.size ≤ i := by simpa [Store.reversed] using hle
      rw [module_of_size_le s hle, module_of_size_le s.reversed hle', List.map_nil]
  rw [hmodule]
  refine ⟨?_, rfl⟩
  rw [List.forall₂_map_right_iff, List.forall₂_same]
  exact fun d _ => ⟨(List.reverse_perm _).symm, rfl⟩

theorem reach_exact_sample :
    compiledSample.1.Ready compiledSample.1.registry.libraries ∧
    compiledSample.1.Reordered compiledSample.1.reversed ∧
    ∃ found found', compiledSample.1.Collects (compiledSample.1.module 2).declarations
        compiledSample.1.registry.libraries found ∧
      (reach (compiledSample.1.module 2).declarations compiledSample.1.registry.libraries
        compiledSample.1).1 = .ok found ∧
      (reach (compiledSample.1.reversed.module 2).declarations.reverse
        compiledSample.1.registry.libraries compiledSample.1.reversed).1 = .ok found' ∧
      (found.map (·.serial)).Perm (found'.map (·.serial)) := by
  obtain ⟨hexact, hsame⟩ := reach_exact compiledSample.2 ready_compiledSample 2
  have hreordered := compiledSample.1.reordered_reversed
  have houtcome := hsame _ _ hreordered (List.reverse_perm _)
  refine ⟨ready_compiledSample, hreordered, ?_⟩
  obtain ⟨-, -, -, hok⟩ := compiled_compiledSample
  rcases hexact with ⟨found, hfound, hcollects⟩ | ⟨fault, hfault, -⟩
  · rw [hfound] at houtcome
    generalize (reach (compiledSample.1.reversed.module 2).declarations.reverse
      compiledSample.1.registry.libraries compiledSample.1.reversed).1 = r at houtcome ⊢
    cases houtcome with
    | found hperm => exact ⟨found, _, hcollects, congrArg Prod.fst hfound, rfl, hperm⟩
  · rw [hfault] at hok
    cases hok

end ShaderLink
