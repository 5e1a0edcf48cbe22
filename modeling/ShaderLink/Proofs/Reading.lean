import Mathlib.Data.List.TakeWhile
import ShaderLink.Outline
import ShaderLink.Proofs.Captures
import ShaderLink.Proofs.Contracts

/-!
# What is read in a module

All declarations that are read in a module belong to its path, their names have no slashes in them,
and their references are among the names in sight (`Declaration.ReadAt`).  The names in sight have
no slashes either, and those that are not imported are declared in the module.  So an id determines
the path of the module and the name in it, which is `idOf_inj`.  Each pass keeps to this, and adding
the references does; the result is `readAt_of_read`.
-/

namespace ShaderLink

/-- There is no slash in the text. -/
def IsSegment (t : Text) : Prop := '/' ∉ t

instance (t : Text) : Decidable (IsSegment t) := inferInstanceAs (Decidable (¬ _))

theorem isSegment_of_isWord {t : Text} (h : ∀ c ∈ t, Text.isWord c = true) : IsSegment t :=
  fun hmem => absurd (h _ hmem) (by decide)

/-- A text without slashes is a segment of its own. -/
theorem firstSegment_of_isSegment {t : Text} (h : IsSegment t) : firstSegment t = t := by
  refine List.takeWhile_eq_self_iff.2 fun c hc => bne_iff_ne.2 ?_
  rintro rfl
  exact h hc

/-- Ids agree only for the same name of the same module. -/
theorem idOf_inj {p q n n' : Text} (hn : IsSegment n) (hn' : IsSegment n')
    (h : idOf p n = idOf q n') : p = q ∧ n = n' :=
  Text.append_cons_inj hn hn' h

/-- The form of a kind of declarations that one match of it takes out. -/
def Kind.form? : Kind → Option Pattern
  | .global => some Form.globalForm
  | .uniform => some Form.uniformForm
  | .function | .struct | .define => none

/-- If its kind has such a form, the declaration says what a match of it says. -/
def Declaration.IsMatched (d : Declaration) : Prop :=
  ∀ form, d.kind.form? = some form →
    ∃ code, ∃ m ∈ form.sequence code, d.name = m.group 3 ∧ d.definition = m.text.trim

/-- The declaration was read in the module at a path, with these names in sight, and has no number
yet. -/
structure Declaration.ReadAt (path : Text) (names : List Reference) (d : Declaration) : Prop where
  path_eq : d.path = path
  name : IsSegment d.name
  matched : d.IsMatched
  references : ∀ r ∈ d.references, r ∈ names
  serial : d.serial = 0

theorem Declaration.ReadAt.mono {path : Text} {names names' : List Reference} {d : Declaration}
    (h : d.ReadAt path names) (hnames : ∀ r ∈ names, r ∈ names') : d.ReadAt path names' :=
  ⟨h.path_eq, h.name, h.matched, fun r hr => hnames r (h.references r hr), h.serial⟩

theorem Declaration.readAt_ofSource {kind : Kind} {name path definition : Text} {index : Int}
    {parameters : List Parameter} (h : IsSegment name)
    (hmatched : (ofSource kind name path index definition parameters).IsMatched) :
    (ofSource kind name path index definition parameters).ReadAt path [] :=
  ⟨rfl, h, hmatched, nofun, rfl⟩

/-- The import is what an entry of a statement says. -/
def Import.IsEntry (i : Import) : Prop :=
  ∃ entry m target, Statement.importEntry.search entry = some m ∧
    i = { name := m.group 1, path := target, aliasName := m.group? 2 }

theorem Import.IsEntry.isSegment {i : Import} (h : i.IsEntry) : IsSegment i.name := by
  obtain ⟨entry, m, target, hm, rfl⟩ := h
  exact isSegment_of_isWord (Pattern.isWord_of_search rfl hm)

/-- A name in sight that is not imported is declared in the module. -/
def Reference.IsDeclaredIn (ds : List Declaration) (r : Reference) : Prop :=
  r.origin = .ambient → ∃ d ∈ ds, d.path = r.path ∧ d.name = r.name

/-! ## Passes -/

section Passes

variable {path : Text}

theorem forall_of_mapM_eq_ok {α β ε : Type} {P : β → Prop} {f : α → Except ε β} {l : List α}
    {bs : List β} (hf : ∀ a ∈ l, ∀ b, f a = .ok b → P b) (h : l.mapM f = .ok bs) :
    ∀ b ∈ bs, P b := by
  induction l generalizing bs with
  | nil =>
    cases h
    exact nofun
  | cons a l ih =>
    rw [List.mapM_cons] at h
    cases ha : f a with
    | error e =>
      rw [ha] at h
      cases h
    | ok b =>
      cases hl : l.mapM f with
      | error e =>
        rw [ha, hl] at h
        cases h
      | ok bs' =>
        rw [ha, hl] at h
        cases h
        refine List.forall_mem_cons.2 ⟨hf a List.mem_cons_self b ha, ?_⟩
        exact ih (fun a ha => hf a (List.mem_cons_of_mem _ ha)) hl

theorem Pass.isEntry_of_importEntries {library : Text} {m : Match} {is : List Import}
    (h : Pass.importEntries path library m = .ok is) : ∀ i ∈ is, i.IsEntry := by
  unfold importEntries at h
  split at h
  · cases h
  · refine forall_of_mapM_eq_ok (fun entry _ i hi => ?_) h
    unfold importEntry at hi
    split at hi
    · cases hi
    · rename_i m' hm'
      cases hi
      exact ⟨entry, m', _, hm', rfl⟩

theorem ends_imports (code : Text) :
    Ends (fun is _ => ∀ i ∈ is, i.IsEntry) (fun _ => True) (Pass.imports path code) := by
  unfold Pass.imports
  apply ends_bind.2
  apply ends_ofExcept.2
  refine ⟨fun library _ => ?_, fun _ _ => trivial⟩
  apply ends_bind.2
  apply ends_get.2
  have hentries : ∀ m ∈ Statement.importForm.sequence code, ∀ s : Text, True →
      Ends (fun is _ => (∀ i ∈ is, i.IsEntry) ∧ True) (fun _ => True)
        ((do
          let entries ← ofExcept (Pass.importEntries path library m)
          Pass.clear m.start m.stop
          return entries : Pass (List Import)) s) := by
    intro m _ s _
    apply ends_bind.2
    apply ends_ofExcept.2
    refine ⟨fun is his => ?_, fun _ _ => trivial⟩
    exact ⟨Pass.isEntry_of_importEntries his, trivial⟩
  refine (ends_mapM hentries trivial).bind fun lists s hlists => ?_
  intro i hi
  obtain ⟨is, his, hi⟩ := List.mem_flatten.1 hi
  exact hlists.1 is his i hi

/-- A pass that takes out declarations of the module at the path, without references. -/
def Finds (path : Text) (pass : Pass (List Declaration)) : Prop :=
  ∀ code, Ends (fun ds _ => ∀ d ∈ ds, d.ReadAt path []) (fun _ => True) (pass code)

theorem finds_functionsFrom (fuel : Nat) : Finds path (Pass.functionsFrom path fuel) := by
  induction fuel with
  | zero => exact fun code => nofun
  | succ fuel ih =>
    intro code
    unfold Pass.functionsFrom
    apply ends_bind.2
    apply ends_get.2
    cases hm : Form.functionHead.search code with
    | none => exact nofun
    | some m =>
      apply ends_bind.2
      apply ends_ofExcept.2
      refine ⟨fun extent _ => ?_, fun _ _ => trivial⟩
      obtain ⟨stop, parameters⟩ := extent
      apply ends_bind.2
      apply ends_modify.2
      refine (ih _).bind fun others s hothers => ?_
      refine List.forall_mem_cons.2 ⟨Declaration.readAt_ofSource ?_ nofun, hothers⟩
      exact isSegment_of_isWord (Pattern.isWord_of_search rfl hm)

theorem finds_functions : Finds path (Pass.functions path) := by
  intro code
  unfold Pass.functions
  apply ends_bind.2
  exact finds_functionsFrom _ code

theorem finds_matched {kind : Kind} {form : Pattern} (hkind : kind.form? = some form)
    (h : form.bodies 3 = [Pattern.identifier]) : Finds path (Pass.matched kind form path) := by
  intro code
  unfold Pass.matched
  apply ends_bind.2
  apply ends_get.2
  refine (ends_trivial _).bind fun _ s _ => ?_
  intro d hd
  obtain ⟨m, hm, rfl⟩ := List.mem_map.1 hd
  refine Declaration.readAt_ofSource (isSegment_of_isWord (Pattern.isWord_of_sequence h hm)) ?_
  intro form' hform'
  obtain rfl : form = form' := Option.some.inj (hkind.symm.trans hform')
  exact ⟨code, m, hm, rfl, rfl⟩

theorem finds_structs : Finds path (Pass.structs path) := by
  intro code
  unfold Pass.structs
  apply ends_bind.2
  apply ends_get.2
  refine (ends_mapM (I := fun _ => True) (P := Declaration.ReadAt path []) (fun m hm s _ => ?_)
    trivial).imp fun _ _ h => h.1
  apply ends_bind.2
  apply ends_ofExcept.2
  refine ⟨fun fields _ => ⟨Declaration.readAt_ofSource ?_ nofun, trivial⟩, fun _ _ => trivial⟩
  exact isSegment_of_isWord (Pattern.isWord_of_sequence rfl hm)

theorem finds_defines : Finds path (Pass.defines path) := by
  intro code
  unfold Pass.defines
  apply ends_bind.2
  apply ends_get.2
  refine (ends_mapM (I := fun _ => True) (P := Declaration.ReadAt path []) (fun m hm s _ => ?_)
    trivial).imp fun _ _ h => h.1
  refine ⟨Declaration.readAt_ofSource ?_ nofun, trivial⟩
  exact isSegment_of_isWord (Pattern.isWord_of_sequence rfl hm)

end Passes

/-! ## References -/

section References

variable {path : Text} {names : List Reference} {d d' : Declaration} {ds ds' : List Declaration}
  {is : List Import}

theorem readAt_addReference {r : Reference} (h : d.ReadAt path names) (hr : r ∈ names) :
    (d.addReference r).ReadAt path names := by
  unfold Declaration.addReference
  split
  · exact h
  · refine ⟨h.path_eq, h.name, h.matched, fun s hs => ?_, h.serial⟩
    rcases List.mem_append.1 hs with hs | hs
    · exact h.references s hs
    · rw [List.mem_singleton] at hs
      exact hs ▸ hr

theorem readAt_addReferences {rs : List Reference} (h : d.ReadAt path names)
    (hrs : ∀ r ∈ rs, r ∈ names) : (d.addReferences rs).ReadAt path names := by
  unfold Declaration.addReferences
  induction rs generalizing d with
  | nil => exact h
  | cons r rs ih =>
    rw [List.foldl_cons]
    apply ih
    · exact readAt_addReference h (hrs r List.mem_cons_self)
    · exact fun s hs => hrs s (List.mem_cons_of_mem _ hs)

theorem relate_eq_ok (h : d.relate names = .ok d') :
    ∃ subject, d.subject = .ok subject ∧
      d' = d.addReferences (names.filter (·.isMentionedIn subject)) := by
  unfold Declaration.relate at h
  cases hs : d.subject with
  | error e =>
    rw [hs] at h
    cases h
  | ok subject =>
    rw [hs] at h
    cases h
    exact ⟨subject, rfl, rfl⟩

theorem readAt_relate (h : d.ReadAt path names) (hd : d.relate names = .ok d') :
    d'.ReadAt path names := by
  obtain ⟨subject, -, rfl⟩ := relate_eq_ok hd
  exact readAt_addReferences h fun r hr => (List.mem_filter.1 hr).1

theorem readAt_relateAll (h : ∀ d ∈ ds, d.ReadAt path names) :
    ∀ d ∈ (relateAll names ds).1, d.ReadAt path names := by
  induction ds with
  | nil => exact nofun
  | cons d ds ih =>
    rw [List.forall_mem_cons] at h
    unfold relateAll
    cases hd : d.relate names with
    | error e => exact List.forall_mem_cons.2 h
    | ok d' => exact List.forall_mem_cons.2 ⟨readAt_relate h.1 hd, ih h.2⟩

theorem addReference_eq (d : Declaration) (r : Reference) :
    d.addReference r = { d with references := (d.addReference r).references } := by
  unfold Declaration.addReference
  split <;> rfl

theorem addReferences_eq (d : Declaration) (rs : List Reference) :
    d.addReferences rs = { d with references := (d.addReferences rs).references } := by
  unfold Declaration.addReferences
  induction rs generalizing d with
  | nil => rfl
  | cons r rs ih =>
    rw [List.foldl_cons, ih (d.addReference r), addReference_eq d r]

/-- Relating changes only references, so what a declaration is for others stays. -/
theorem map_relateAll {α : Type} (names : List Reference) (ds : List Declaration)
    (f : Declaration → α) (hf : ∀ d rs, f { d with references := rs } = f d) :
    (relateAll names ds).1.map f = ds.map f := by
  induction ds with
  | nil => rfl
  | cons d ds ih =>
    unfold relateAll
    cases hd : d.relate names with
    | error e => rfl
    | ok d' =>
      obtain ⟨subject, -, rfl⟩ := relate_eq_ok hd
      show f (d.addReferences _) :: (relateAll names ds).1.map f = f d :: ds.map f
      rw [ih, addReferences_eq, hf]

theorem candidates_relateAll (names : List Reference) (ds : List Declaration) (is : List Import) :
    candidates (relateAll names ds).1 is = candidates ds is := by
  unfold candidates
  rw [map_relateAll]
  exact fun _ _ => rfl

/-- If all declarations could be given references, each of them is there with its own. -/
theorem mem_relateAll {notices : List Notice} (h : relateAll names ds = (ds', notices, .ok ()))
    (hd : d ∈ ds) (hrelate : d.relate names = .ok d') : d' ∈ ds' := by
  induction ds generalizing ds' notices with
  | nil => cases hd
  | cons e ds ih =>
    unfold relateAll at h
    cases he : e.relate names with
    | error fault => simp [he] at h
    | ok e' =>
      rw [he] at h
      obtain ⟨hds, -, hok⟩ : e' :: (relateAll names ds).1 = ds' ∧ _ ∧
          (relateAll names ds).2.2 = .ok () := by simpa using h
      rw [← hds]
      rcases List.mem_cons.1 hd with rfl | hd
      · rw [hrelate] at he
        cases he
        exact List.mem_cons_self
      · exact List.mem_cons_of_mem _ (ih (Prod.ext rfl (Prod.ext rfl hok)) hd)

/-- References with new ids are added as they are. -/
theorem references_addReferences {rs : List Reference}
    (h : ((d.references ++ rs).map (·.id)).Nodup) :
    (d.addReferences rs).references = d.references ++ rs := by
  unfold Declaration.addReferences
  induction rs generalizing d with
  | nil => exact (List.append_nil _).symm
  | cons r rs ih =>
    have hnew : d.uses r.id = false := by
      rw [List.map_append, List.nodup_append] at h
      simp only [Declaration.uses, List.any_eq_false, beq_iff_eq]
      exact fun s hs => h.2.2 _ (List.mem_map_of_mem hs) _ List.mem_cons_self
    have hadd : d.addReference r = { d with references := d.references ++ [r] } := by
      unfold Declaration.addReference
      simp [hnew]
    rw [List.foldl_cons, ih, hadd]
    · exact List.append_assoc ..
    · rw [hadd]
      simpa using h

theorem nodup_addCandidate {known : List Reference} {r : Reference}
    (h : (known.map (·.id)).Nodup) : ((addCandidate known r).map (·.id)).Nodup := by
  unfold addCandidate
  split
  · exact h
  · rename_i hnew
    rw [List.map_append, List.nodup_append]
    refine ⟨h, List.pairwise_singleton _ _, ?_⟩
    intro i hi j hj hij
    obtain ⟨s, hs, rfl⟩ := List.mem_map.1 hi
    rw [List.map_singleton, List.mem_singleton] at hj
    exact hnew (List.any_eq_true.2 ⟨s, hs, beq_iff_eq.2 (hij.trans hj)⟩)

/-- No two names in sight have one id. -/
theorem nodup_candidates (ds : List Declaration) (is : List Import) :
    ((candidates ds is).map (·.id)).Nodup := by
  have hfold : ∀ (rs known : List Reference), (known.map (·.id)).Nodup →
      ((rs.foldl addCandidate known).map (·.id)).Nodup := by
    intro rs
    induction rs with
    | nil => exact fun _ h => h
    | cons r rs ih => exact fun known h => ih _ (nodup_addCandidate h)
  exact hfold _ [] List.nodup_nil

theorem mem_of_mem_addCandidate {known : List Reference} {r s : Reference}
    (h : s ∈ addCandidate known r) : s ∈ known ∨ s = r := by
  unfold addCandidate at h
  split at h
  · exact Or.inl h
  · exact (List.mem_append.1 h).imp_right List.mem_singleton.1

/-- A name in sight is that of an import or of a declaration. -/
theorem mem_candidates {r : Reference} (h : r ∈ candidates ds is) :
    (∃ i ∈ is, r = ⟨i.name, i.path, .imported, i.aliasName⟩) ∨
      ∃ d ∈ ds, r = ⟨d.name, d.path, .ambient, none⟩ := by
  have hfold : ∀ (rs known : List Reference), r ∈ rs.foldl addCandidate known →
      r ∈ known ∨ r ∈ rs := by
    intro rs
    induction rs with
    | nil => exact fun _ h => Or.inl h
    | cons s rs ih =>
      intro known h
      rcases ih _ h with h | h
      · rcases mem_of_mem_addCandidate h with h | rfl
        · exact Or.inl h
        · exact Or.inr List.mem_cons_self
      · exact Or.inr (List.mem_cons_of_mem _ h)
  rcases List.mem_append.1 ((hfold _ [] h).resolve_left List.not_mem_nil) with h | h
  · obtain ⟨i, hi, rfl⟩ := List.mem_map.1 h
    exact Or.inl ⟨i, hi, rfl⟩
  · obtain ⟨d, hd, rfl⟩ := List.mem_map.1 h
    exact Or.inr ⟨d, hd, rfl⟩

theorem isSegment_of_mem_candidates (hds : ∀ d ∈ ds, IsSegment d.name)
    (his : ∀ i ∈ is, IsSegment i.name) : ∀ r ∈ candidates ds is, IsSegment r.name := by
  intro r hr
  rcases mem_candidates hr with ⟨i, hi, rfl⟩ | ⟨d, hd, rfl⟩
  · exact his i hi
  · exact hds d hd

theorem isDeclaredIn_of_mem_candidates {r : Reference} (h : r ∈ candidates ds is) :
    r.IsDeclaredIn ds := by
  intro horigin
  rcases mem_candidates h with ⟨i, -, rfl⟩ | ⟨d, hd, rfl⟩
  · cases horigin
  · exact ⟨d, hd, rfl, rfl⟩

end References

/-! ## Outlines -/

/-- What has been read so far belongs to the path, and there are no references yet. -/
structure Reading.Good (path : Text) (s : Reading) : Prop where
  path_eq : s.path = path
  imports : ∀ i ∈ s.imports, i.IsEntry
  declarations : ∀ d ∈ s.declarations, d.ReadAt path []

/-- The outline of the module at a path: all references are to names in sight. -/
structure Outline.ReadAt (path : Text) (o : Outline) : Prop where
  imports : ∀ i ∈ o.imports, IsSegment i.name
  declarations : ∀ d ∈ o.declarations, d.ReadAt path (candidates o.declarations o.imports)

section Reader

variable {path : Text} {s : Reading}

theorem ends_onCode {α : Type} {P : α → Prop} {Q : α → Reading → Prop} {E : Reading → Prop}
    {pass : Text → Pass α} (h : Ends (fun a _ => P a) (fun _ => True) (pass s.path s.code))
    (hQ : ∀ a code, P a → Q a { s with code }) (hE : ∀ code, E { s with code }) :
    Ends Q E (Reader.onCode pass s) := by
  unfold Reader.onCode
  revert h
  rcases pass s.path s.code with ⟨e | a, code⟩
  · exact fun _ => hE code
  · exact fun h => hQ a code h

theorem Reading.Good.ends_imports (hs : s.Good path) :
    Ends (fun _ s' => s'.Good path) (fun _ => True) (Reader.imports s) := by
  unfold Reader.imports
  apply ends_bind.2
  refine ends_onCode (ShaderLink.ends_imports s.code) (fun is code his => ?_) fun _ => trivial
  exact ⟨hs.path_eq, his, hs.declarations⟩

theorem Reading.Good.ends_exports (hs : s.Good path) :
    Ends (fun _ s' => s'.Good path) (fun _ => True) (Reader.exports s) := by
  unfold Reader.exports
  apply ends_bind.2
  refine ends_onCode (ends_trivial _) (fun es code _ => ?_) fun _ => trivial
  exact ⟨hs.path_eq, hs.imports, hs.declarations⟩

theorem Reading.Good.ends_declarations {pass : Text → Pass (List Declaration)}
    (hpass : ∀ path, Finds path (pass path)) (hs : s.Good path) :
    Ends (fun _ s' => s'.Good path) (fun _ => True) (Reader.declarations pass s) := by
  unfold Reader.declarations
  apply ends_bind.2
  refine ends_onCode (hpass s.path s.code) (fun ds code hds => ?_) fun _ => trivial
  refine ⟨hs.path_eq, hs.imports, fun d hd => ?_⟩
  rcases List.mem_append.1 hd with hd | hd
  · exact hs.declarations d hd
  · exact hs.path_eq ▸ hds d hd

theorem Reading.Good.ends_everything (hs : s.Good path) :
    Ends (fun _ s' => s'.Good path) (fun _ => True) (Reader.everything s) := by
  unfold Reader.everything
  refine hs.ends_imports.bind fun _ s hs => ?_
  refine hs.ends_exports.bind fun _ s hs => ?_
  refine (hs.ends_declarations fun _ => finds_functions).bind fun _ s hs => ?_
  refine (hs.ends_declarations fun _ => finds_matched rfl rfl).bind fun _ s hs => ?_
  refine (hs.ends_declarations fun _ => finds_matched rfl rfl).bind fun _ s hs => ?_
  refine (hs.ends_declarations fun _ => finds_structs).bind fun _ s hs => ?_
  refine (hs.ends_declarations fun _ => finds_defines).bind fun _ s hs => ?_
  exact ⟨hs.path_eq, hs.imports, hs.declarations⟩

/-- Giving the declarations their references leaves the imports as they are. -/
theorem ends_references (s : Reading) :
    Ends (fun _ s' => s'.imports = s.imports ∧ ∃ notices,
        relateAll (candidates s.declarations s.imports) s.declarations =
          (s'.declarations, notices, .ok ()))
      (fun _ => True) (Reader.references s) := by
  let related := relateAll (candidates s.declarations s.imports) s.declarations
  unfold Reader.references
  apply ends_bind.2
  apply ends_get.2
  apply ends_bind.2
  apply ends_set.2
  apply ends_bind.2
  apply ends_ofExcept.2
  refine ⟨fun _ hok => ?_, fun _ _ => trivial⟩
  apply ends_bind.2
  refine Ends.imp (ends_forIn (I := fun s' : Reading => s'.imports = s.imports ∧
    s'.declarations = related.1) (fun i _ s hs => hs) ⟨rfl, rfl⟩) ?_
  rintro _ s' ⟨himports, hdeclarations⟩
  refine ⟨himports, related.2.1, ?_⟩
  rw [hdeclarations]
  exact Prod.ext rfl (Prod.ext rfl hok)

end Reader

section Outline

variable {path code : Text} {o o' : Outline}

theorem good_of_ofCode (h : Outline.ofCode path code = .ok o) :
    ∃ s : Reading, s.Good path ∧ s.toOutline = o := by
  have hs : Reading.Good path { toOutline := Outline.unread path code } := ⟨rfl, nofun, nofun⟩
  have hends := hs.ends_everything
  unfold Outline.ofCode Outline.step at h
  revert hends h
  rcases Reader.everything { toOutline := Outline.unread path code } with ⟨e | a, s⟩
  · exact fun h => nomatch h
  · intro h hgood
    cases h
    exact ⟨s, hgood, rfl⟩

/-- The library of a module is looked at even if there is nothing to import. -/
theorem firstSegment_ne_nil_of_ofCode (h : Outline.ofCode path code = .ok o) :
    firstSegment path ≠ [] := by
  have himports : Ends (fun _ _ => firstSegment path ≠ []) (fun _ => True)
      (Pass.imports path code) := by
    unfold Pass.imports
    apply ends_bind.2
    apply ends_ofExcept.2
    refine ⟨fun library hlibrary => (ends_trivial _).imp fun _ _ _ => ?_, fun _ _ => trivial⟩
    obtain ⟨rfl, hne⟩ := libraryOf_eq_ok_iff.1 hlibrary
    exact hne
  have hends : Ends (fun _ _ => firstSegment path ≠ []) (fun _ => True)
      (Reader.everything { toOutline := Outline.unread path code }) := by
    unfold Reader.everything Reader.imports
    apply ends_bind.2
    apply ends_bind.2
    refine ends_onCode himports (fun _ _ hpath => ?_) fun _ => trivial
    exact (ends_trivial _).imp fun _ _ _ => (ends_trivial _).imp fun _ _ _ => hpath
  unfold Outline.ofCode Outline.step at h
  revert hends h
  rcases Reader.everything { toOutline := Outline.unread path code } with ⟨e | a, s⟩
  · exact fun h => nomatch h
  · exact fun _ h => h

/-- The declarations are found first, and then given their references. -/
theorem exists_ofCode_of_read (h : (Outline.read path code).1 = .ok o') :
    ∃ o, Outline.ofCode path code = .ok o ∧ o'.imports = o.imports ∧ ∃ notices,
      relateAll (candidates o.declarations o.imports) o.declarations =
        (o'.declarations, notices, .ok ()) := by
  have hends : Ends (fun _ s' => ∃ o, Outline.ofCode path code = .ok o ∧ s'.imports = o.imports ∧
      ∃ notices, relateAll (candidates o.declarations o.imports) o.declarations =
        (s'.declarations, notices, .ok ())) (fun _ => True)
      ((do
        Reader.everything
        Reader.references : Reader Unit) { toOutline := Outline.unread path code }) := by
    apply ends_bind.2
    unfold Outline.ofCode Outline.step
    rcases Reader.everything { toOutline := Outline.unread path code } with ⟨e | a, s⟩
    · trivial
    · exact (ends_references s).imp fun _ s' hs' => ⟨s.toOutline, rfl, hs'⟩
  unfold Outline.read Outline.step at h
  revert hends h
  rcases (do
    Reader.everything
    Reader.references : Reader Unit) { toOutline := Outline.unread path code } with ⟨e | a, s⟩
  · exact fun h => nomatch h
  · intro h hs
    cases h
    exact hs

theorem firstSegment_ne_nil_of_read (h : (Outline.read path code).1 = .ok o') :
    firstSegment path ≠ [] := by
  obtain ⟨o, ho, -⟩ := exists_ofCode_of_read h
  exact firstSegment_ne_nil_of_ofCode ho

theorem readAt_of_read (h : (Outline.read path code).1 = .ok o') : o'.ReadAt path := by
  obtain ⟨o, ho, himports, notices, hrelated⟩ := exists_ofCode_of_read h
  obtain ⟨s, hs, rfl⟩ := good_of_ofCode ho
  have hdeclarations : (relateAll (candidates s.declarations s.imports) s.declarations).1 =
      o'.declarations := by rw [hrelated]
  refine ⟨fun i hi => (hs.imports i (himports ▸ hi)).isSegment, ?_⟩
  rw [← hdeclarations, himports, candidates_relateAll]
  exact readAt_relateAll fun d hd => (hs.declarations d hd).mono nofun

end Outline

namespace Outline.ReadAt

variable {path : Text} {o : Outline} (h : o.ReadAt path) {d : Declaration} {r : Reference}
include h

theorem isSegment (hd : d ∈ o.declarations) (hr : r ∈ d.references) : IsSegment r.name := by
  have hr := (h.declarations d hd).references r hr
  exact isSegment_of_mem_candidates (fun d hd => (h.declarations d hd).name) h.imports r hr

theorem isDeclaredIn (hd : d ∈ o.declarations) (hr : r ∈ d.references) :
    r.IsDeclaredIn o.declarations :=
  isDeclaredIn_of_mem_candidates ((h.declarations d hd).references r hr)

end Outline.ReadAt

end ShaderLink
