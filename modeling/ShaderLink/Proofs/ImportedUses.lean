import ShaderLink.Proofs.Agreement
import ShaderLink.Proofs.Answering
import ShaderLink.Proofs.FinalNames
import ShaderLink.Proofs.Mentions
import ShaderLink.Proofs.NewNames

/-!
# Uses of imports

Each id is in sight once, under the local name of the first import of it (`Outline.Lists`).  So a
declaration that mentions the local name of an import refers to the import under that name if and
only if it is this one (`refersTo_iff_lists`).  Then something with its id is linked wherever the
declaration is, and of the local name nothing is left there that is not a name in its own right
(`refersTo_of_mentions`).  In the same way everything that a uniform or a global variable mentions is
linked with it, and stands before it (`relate_mentioned`).
-/

namespace ShaderLink

open Text Pattern LinkM Store

/-! ## Identifiers -/

section Identifiers

variable {path code : Text} {d : Declaration} {parts : List Text} {o : Outline} {i : Import}

theorem Taken.isIdentifier (h : Taken path code d parts) : IsIdentifier d.name := by
  induction h with
  | function hm =>
    obtain ⟨b, start, t, hhere⟩ := exists_here_of_search hm
    obtain ⟨-, -, w', -, -, -, -, -, -, hw', -, -, -, -, -, -, hname, -⟩ := exists_of_function hhere
    exact hname ▸ hw'
  | next _ _ _ _ ih => exact ih
  | «variable» hkind hm =>
    obtain ⟨x, hx, -⟩ := exists_layout_of_sequence hkind hm
    exact hx.name ▸ x.name.isIdentifier
  | struct hm =>
    obtain ⟨b, start, t, m, offset, hhere, rfl⟩ := exists_here_of_sequence hm
    obtain ⟨-, -, -, n, -, -, -, -, -, -, hn, -, -, -, -, -, -, -, hname, -⟩ :=
      exists_of_struct hhere
    exact hname ▸ hn
  | define hm =>
    obtain ⟨b, start, t, m, offset, hhere, rfl⟩ := exists_here_of_sequence hm
    obtain ⟨-, -, -, n, -, -, -, -, -, -, hn, -, -, -, -, -, -, -, -, hname, -⟩ :=
      exists_of_define hhere
    exact hname ▸ hn

theorem isIdentifier_of_ofCode (h : Outline.ofCode path code = .ok o) :
    ∀ d ∈ o.declarations, IsIdentifier d.name := by
  intro d hd
  obtain ⟨kind, hkind⟩ := exists_isFoundIn_of_ofCode h d hd
  obtain ⟨seen, parts, -, htaken⟩ := hkind.exists_taken
  exact htaken.isIdentifier

theorem Import.IsEntry.isIdentifier (h : i.IsEntry) :
    IsIdentifier i.name ∧ IsIdentifier i.localName := by
  obtain ⟨entry, m, target, hm, rfl⟩ := h
  obtain ⟨b, start, t, hhere⟩ := exists_here_of_search hm
  obtain ⟨hname, halias⟩ := isIdentifier_of_importEntry hhere
  refine ⟨hname, ?_⟩
  show IsIdentifier (nameOrAlias (m.group 1) (m.group? 2))
  cases ha : m.group? 2 with
  | none => exact hname
  | some w =>
    cases w with
    | nil => exact hname
    | cons c w => exact halias _ ha

end Identifiers

/-! ## Names in sight -/

section Candidates

variable {x : Text} {r : Reference} {names : List Reference} {ds : List Declaration}
  {is : List Import} {i : Import}

theorem find?_addCandidate (known : List Reference) (r : Reference) :
    (addCandidate known r).find? (·.id == x) = (known ++ [r]).find? (·.id == x) := by
  unfold addCandidate
  split
  · rename_i hknown
    rw [List.find?_append]
    cases hfind : known.find? (·.id == x) with
    | some s => rfl
    | none =>
      obtain ⟨s, hs, hid⟩ := List.any_eq_true.1 hknown
      have hne : (r.id == x) = false := by
        rw [← beq_iff_eq.1 hid]
        simpa using List.find?_eq_none.1 hfind s hs
      simp [hne]
  · rfl

/-- Under an id the first one that has it is found. -/
theorem find?_foldl_addCandidate (rs known : List Reference) :
    (rs.foldl addCandidate known).find? (·.id == x) = (known ++ rs).find? (·.id == x) := by
  induction rs generalizing known with
  | nil => simp
  | cons r rs ih =>
    rw [List.foldl_cons, ih, List.find?_append, find?_addCandidate, ← List.find?_append,
      List.append_assoc, List.singleton_append]

/-- An import as a name in sight. -/
def Import.reference (i : Import) : Reference := ⟨i.name, i.path, .imported, i.aliasName⟩

theorem find?_candidates (hi : is.find? (·.id == x) = some i) :
    (candidates ds is).find? (·.id == x) = some i.reference := by
  have hmap : (is.map Import.reference).find? (·.id == x) = some i.reference := by
    rw [List.find?_map]
    show (is.find? fun i => i.id == x).map _ = _
    rw [hi]
    rfl
  unfold candidates
  rw [find?_foldl_addCandidate, List.nil_append, List.find?_append]
  show ((is.map Import.reference).find? _).or _ = _
  rw [hmap]
  rfl

/-- Where ids are different, the one with an id is found. -/
theorem find?_id_eq_some_iff (hnodup : (names.map (·.id)).Nodup) :
    names.find? (·.id == x) = some r ↔ r ∈ names ∧ r.id = x := by
  constructor
  · exact fun h => ⟨List.mem_of_find?_eq_some h, by simpa using List.find?_some h⟩
  · rintro ⟨hr, rfl⟩
    cases hfind : names.find? (·.id == r.id) with
    | none => simpa using List.find?_eq_none.1 hfind r hr
    | some s =>
      have hid : s.id = r.id := by simpa using List.find?_some hfind
      rw [List.inj_on_of_nodup_map hnodup (List.mem_of_find?_eq_some hfind) hr hid]

end Candidates

/-! ## References -/

section References

variable {path code : Text} {o : Outline} {d d' : Declaration} {ds ds' : List Declaration}
  {names : List Reference} {notices : List Notice} {subject : Text} {i : Import}

theorem exists_of_mem_relateAll (h : relateAll names ds = (ds', notices, .ok ())) (hd : d' ∈ ds') :
    ∃ d ∈ ds, d.relate names = .ok d' := by
  induction ds generalizing ds' notices with
  | nil =>
    cases h
    cases hd
  | cons e ds ih =>
    unfold relateAll at h
    cases he : e.relate names with
    | error fault => simp [he] at h
    | ok e' =>
      rw [he] at h
      obtain ⟨rfl, -, hok⟩ : e' :: (relateAll names ds).1 = ds' ∧ _ ∧
          (relateAll names ds).2.2 = .ok () := by simpa using h
      rcases List.mem_cons.1 hd with rfl | hd
      · exact ⟨e, List.mem_cons_self, he⟩
      · obtain ⟨d, hd, hrelate⟩ := ih (Prod.ext rfl (Prod.ext rfl hok)) hd
        exact ⟨d, List.mem_cons_of_mem e hd, hrelate⟩

/-- The subject does not depend on references. -/
theorem subject_addReferences (d : Declaration) (rs : List Reference) :
    (d.addReferences rs).subject = d.subject := by
  rw [addReferences_eq]
  rfl

/-- The references of what was read are the names in sight that its subject mentions. -/
theorem references_of_read (h : (Outline.read path code).1 = .ok o) (hd : d ∈ o.declarations)
    (hsubject : d.subject = .ok subject) :
    d.references = (candidates o.declarations o.imports).filter (·.isMentionedIn subject) := by
  obtain ⟨o₀, ho₀, himports, notices, hrelated⟩ := exists_ofCode_of_read h
  obtain ⟨s, hs, rfl⟩ := good_of_ofCode ho₀
  obtain ⟨d₀, hd₀, hrelate⟩ := exists_of_mem_relateAll hrelated hd
  obtain ⟨subject', hsubject', rfl⟩ := relate_eq_ok hrelate
  rw [subject_addReferences, hsubject'] at hsubject
  cases hsubject
  have hnone : d₀.references = [] := List.eq_nil_iff_forall_not_mem.2 fun r hr =>
    List.not_mem_nil ((hs.declarations d₀ hd₀).references r hr)
  have hsame : candidates o.declarations o.imports = candidates s.declarations s.imports := by
    have hkeeps :=
      candidates_relateAll (candidates s.declarations s.imports) s.declarations s.imports
    rw [hrelated] at hkeeps
    rwa [himports]
  rw [hsame, references_addReferences, hnone, List.nil_append]
  rw [hnone, List.nil_append]
  exact (nodup_candidates s.declarations s.imports).sublist (List.filter_sublist.map _)

/-- Something is used that has the id of the import, under its local name. -/
def Declaration.RefersTo (d : Declaration) (i : Import) : Prop :=
  ∃ r ∈ d.references, r.id = i.id ∧ r.localName = i.localName

/-- The first import of its id has the same local name. -/
def Outline.Lists (o : Outline) (i : Import) : Prop :=
  ∃ j, o.imports.find? (·.id == i.id) = some j ∧ j.localName = i.localName

/-- The local name of an import is a name in sight if it is that of the first import of its id. -/
theorem refersTo_iff_lists (h : (Outline.read path code).1 = .ok o) (hd : d ∈ o.declarations)
    (hsubject : d.subject = .ok subject) (hi : i ∈ o.imports)
    (huse : subject.containsWord i.localName = true) : d.RefersTo i ↔ o.Lists i := by
  obtain ⟨j, hj⟩ : ∃ j, o.imports.find? (·.id == i.id) = some j := by
    rw [← Option.isSome_iff_exists, List.find?_isSome]
    exact ⟨i, hi, beq_self_eq_true i.id⟩
  have hid : j.id = i.id := by simpa using List.find?_some hj
  have hfirst : (candidates o.declarations o.imports).find? (·.id == i.id) = some j.reference :=
    find?_candidates hj
  have hnodup := nodup_candidates o.declarations o.imports
  unfold Declaration.RefersTo Outline.Lists
  rw [references_of_read h hd hsubject]
  constructor
  · rintro ⟨r, hr, hrid, hlocal⟩
    have hfind := (find?_id_eq_some_iff hnodup).2 ⟨(List.mem_filter.1 hr).1, hrid⟩
    obtain rfl := Option.some.inj (hfirst.symm.trans hfind)
    exact ⟨j, hj, hlocal⟩
  · rintro ⟨j', hj', hlocal⟩
    obtain rfl := Option.some.inj (hj.symm.trans hj')
    have hmem := ((find?_id_eq_some_iff hnodup).1 hfirst).1
    refine ⟨j.reference, List.mem_filter.2 ⟨hmem, ?_⟩, hid, hlocal⟩
    show subject.containsWord j.localName = true
    rw [hlocal, huse]

/-- All names of references are identifiers. -/
theorem isIdentifier_references (h : (Outline.read path code).1 = .ok o) (hd : d ∈ o.declarations) :
    IsIdentifier d.name ∧ ∀ r ∈ d.references, IsIdentifier r.name ∧ IsIdentifier r.localName := by
  obtain ⟨o₀, ho₀, himports, notices, hrelated⟩ := exists_ofCode_of_read h
  have hnames := isIdentifier_of_ofCode ho₀
  obtain ⟨s, hs, rfl⟩ := good_of_ofCode ho₀
  have hmem := ((readAt_of_read h).declarations d hd).references
  have hread : ∀ d ∈ o.declarations, IsIdentifier d.name := by
    intro d hd
    obtain ⟨d₀, hd₀, hrelate⟩ := exists_of_mem_relateAll hrelated hd
    obtain ⟨subject, -, rfl⟩ := relate_eq_ok hrelate
    rw [addReferences_eq]
    exact hnames d₀ hd₀
  refine ⟨hread d hd, fun r hr => ?_⟩
  rcases mem_candidates (hmem r hr) with ⟨i, hi, rfl⟩ | ⟨e, he, rfl⟩
  · exact (hs.imports i (himports ▸ hi)).isIdentifier
  · exact ⟨hread e he, hread e he⟩

end References

/-! ## Local names that are left -/

section Left

variable {d : Declaration} {renames : List (Text × Text)} {w : Text}

/-- A local name is left in a linked definition only where it is a final name. -/
theorem exists_finalName_of_containsWord (hname : IsIdentifier d.name)
    (hnames : ∀ r ∈ d.references, IsIdentifier r.name ∧ IsIdentifier r.localName)
    (hnew : ∀ p ∈ renames, IsIdentifier p.2) (hw : w ∈ d.references.map (·.localName))
    (hleft : (d.resolvedDefinition renames).containsWord w = true) :
    ∃ r ∈ d.references, Declaration.finalName renames r = w := by
  have hidentifier : IsIdentifier w := by
    obtain ⟨r, hr, rfl⟩ := List.mem_map.1 hw
    exact (hnames r hr).2
  have hproper : Proper ((d.ownRuns renames).map
      (Run.map (Declaration.carried renames d.references))) :=
    (Declaration.proper_ownRuns hnew).of_alike (alike_map (fun v hv =>
      Declaration.isIdentifier_carried hnew (fun r hr => (hnames r hr).1) hv) _)
  rw [containsWord_iff hidentifier, Declaration.resolvedDefinition_eq_runs hname
    (fun r hr => (hnames r hr).1) (fun r hr => (hnames r hr).2) hnew, runs_flatten hproper] at hleft
  obtain ⟨v | c, -, hv⟩ := List.mem_map.1 hleft
  · obtain rfl := Run.word.inj hv
    rcases Declaration.carried_cases d.references v with ⟨hsame, hnot⟩ | ⟨r, hr, hfinal⟩
    · rw [hsame] at hw
      exact absurd hw hnot
    · exact ⟨r, hr, hfinal.symm⟩
  · cases hv

end Left

/-! ## New names -/

namespace Renaming

variable {name : Text} {ds : List Declaration}

theorem isWord_of_isDigit {c : Char} (h : c.isDigit = true) : isWord c = true := by
  have hrange : 48 ≤ c.toNat ∧ c.toNat ≤ 57 := by
    simpa [Char.isDigit, UInt32.le_iff_toNat_le] using h
  have hlt : c.toNat < 128 := by omega
  unfold isWord isBasicWord
  rw [if_pos hlt]
  simp [Char.isAlphanum, h]

theorem isIdentifier_numbered (h : IsIdentifier name) (i : Nat) :
    IsIdentifier (numbered name i) := by
  obtain ⟨t, ht⟩ := exists_stem_eq name
  have hstem : ∀ c ∈ stem name, isWord c = true := by
    unfold stem
    split
    · exact h.2
    · refine List.forall_mem_append.2 ⟨h.2, ?_⟩
      simp only [List.mem_singleton, forall_eq]
      decide
  rw [numbered_eq]
  refine ⟨by simp [ht], List.forall_mem_append.2 ⟨hstem, fun c hc => ?_⟩⟩
  exact isWord_of_isDigit (Nat.isDigit_of_mem_toDigits (by decide) (Nat.le_refl 10) hc)

theorem isIdentifier_ofDeclarations (h : ∀ d ∈ ds, IsIdentifier d.name) :
    ∀ p ∈ ofDeclarations ds, IsIdentifier p.2 := by
  rintro ⟨id, new⟩ hp
  obtain ⟨name, k, hshared, -, rfl⟩ := mem_renames.1 (Table.mem_of_mem_ofList hp)
  obtain ⟨d, hd, rfl⟩ := mem_names.1 hshared.mem_names
  exact isIdentifier_numbered (h d hd) k

end Renaming

/-! ## What is linked -/

section Linked

variable {s₀ s : Store} {i : ModuleId} {m : Module} {q : Search} {ds : List Declaration}
  {code text : Text} {codes : List Text} {s' : Store} {calls : Calls}

theorem Module.ReadWith.isIdentifier (h : m.ReadWith [] calls) :
    ∀ d ∈ m.declarations, IsIdentifier d.name := by
  obtain ⟨code, o, -, ho, hds, -⟩ := h
  have hnames : m.declarations.map (·.name) = o.declarations.map (·.name) := by
    rw [← map_unstamped (f := (·.name)) (fun _ => rfl), map_unstamped_of_numbers hds,
      map_unstamped (fun _ => rfl)]
  intro d hd
  obtain ⟨e, he, hname⟩ := List.mem_map.1 (hnames ▸ List.mem_map_of_mem hd)
  exact hname ▸ (isIdentifier_references ho he).1

/-- Whatever is linked for a shader, something with the id of each reference is, and all names are
identifiers. -/
theorem complete_afterLinks (hs₀ : s₀.Fresh)
    (h : Registry.link code (s₀.afterLinks codes) = (.ok text, s')) :
    ∃ i ds s, Registry.collect code (s₀.afterLinks codes) = (.ok (i, ds), s) ∧
      linkedWith (s.module i).remainder ds = .ok text ∧ (∀ d ∈ ds, IsIdentifier d.name) ∧
      ∀ d ∈ ds, ∀ r ∈ d.references, ∃ c ∈ ds, c.id = r.id := by
  obtain ⟨i, ds, s, q, hcollect, htext, hs, hi, hq, hpending, hmem⟩ := exists_search_of_link hs₀ h
  refine ⟨i, ds, s, hcollect, htext, fun d hd => ?_, fun d hd r hr => ?_⟩
  · rcases (hmem d).1 hd with hd | hd
    · obtain ⟨calls, hread⟩ := hi.read
      exact hread.isIdentifier d hd
    · obtain ⟨id, p, hp, hin⟩ := hq.found d hd
      obtain ⟨leaf, -, -, hleaf⟩ := hs.exists_occupies hp
      obtain ⟨calls, hread⟩ := hleaf.read
      exact hread.isIdentifier d hin
  · have hlinked : ∀ t, s.Asks i ds r t → ∃ c ∈ ds, c.id = r.id :=
      fun t => hq.exists_linked hpending hs hi hmem
    rcases (hmem d).1 hd with hown | hfound
    · cases horigin : r.origin with
      | imported => exact hlinked _ (.shader hown hr horigin)
      | ambient =>
        obtain ⟨c, hc, hpath, hname⟩ := (hs.sound.numbered i).declared d hown r hr horigin
        exact ⟨c, (hmem c).2 (Or.inl hc), congrArg₂ idOf hpath hname⟩
    · obtain ⟨id, p, hp, hin⟩ := hq.found d hfound
      exact hlinked _ (.library hd hp hin hr)

/-- With the declaration something is linked that has the id of the import, and of the local name
nothing is left but what is the final name of a reference. -/
structure Declaration.Binds (d : Declaration) (i : Import) (ds : List Declaration) : Prop where
  linked : ∃ c ∈ ds, c.id = i.id
  left : (d.resolvedDefinition (Renaming.ofDeclarations ds)).containsWord i.localName = true →
    ∃ r ∈ d.references, finalName (Renaming.ofDeclarations ds) r = i.localName

end Linked

/-! ## Imports that are mentioned -/

section Mentioned

variable {path code subject : Text} {o : Outline} {d : Declaration} {i : Import}

/-- A declaration that mentions an import refers to it under its local name, if and only if this is
the one under which the id is listed.  Then the import is bound wherever the declaration is linked,
in whatever shader and after whatever other shaders were. -/
theorem refersTo_of_mentions (h : (Outline.read path code).1 = .ok o) (hd : d ∈ o.declarations)
    (hsubject : d.subject = .ok subject) (hi : i ∈ o.imports)
    (huse : subject.containsWord i.localName = true) :
    (d.RefersTo i ↔ o.Lists i) ∧
    (d.RefersTo i → ∀ (s₀ : Store) codes shader text s', s₀.Fresh →
      Registry.link shader (s₀.afterLinks codes) = (.ok text, s') →
        ∃ j ds s, Registry.collect shader (s₀.afterLinks codes) = (.ok (j, ds), s) ∧
          linkedWith (s.module j).remainder ds = .ok text ∧
          ∀ e ∈ ds, unstamped e = unstamped d → e.Binds i ds) := by
  refine ⟨refersTo_iff_lists h hd hsubject hi huse, ?_⟩
  rintro ⟨r, hr, hid, hlocal⟩ s₀ codes shader text s' hs₀ hlink
  obtain ⟨j, ds, s, hcollect, htext, hnames, hcomplete⟩ := complete_afterLinks hs₀ hlink
  refine ⟨j, ds, s, hcollect, htext, fun e he hsame => ?_⟩
  have hreferences : e.references = d.references := (congrArg Declaration.references hsame :)
  have hr' : r ∈ e.references := hreferences ▸ hr
  refine ⟨hid ▸ hcomplete e he r hr', ?_⟩
  refine exists_finalName_of_containsWord (hnames e he) ?_
    (Renaming.isIdentifier_ofDeclarations hnames) (hlocal ▸ List.mem_map_of_mem hr')
  rw [hreferences]
  exact (isIdentifier_references h hd).2

/-- A shader that uses what it imports under another name. -/
def aliasShader : Text :=
  "import \x7b area as a \x7d from \"shape\";\nvoid main() \x7b a(1.0); \x7d".toList

theorem refersTo_of_mentions_alias : sampleStore.Fresh ∧
    ∃ o, (Outline.read Registry.shaderPath aliasShader).1 = .ok o ∧
      ∃ d ∈ o.declarations, ∃ i ∈ o.imports, o.Lists i ∧ d.RefersTo i ∧
        ∃ j ds s, Registry.collect aliasShader (sampleStore.afterLinks []) = (.ok (j, ds), s) ∧
          ∃ e ∈ ds, unstamped e = unstamped d ∧ e.Binds i ds ∧
            e.resolvedDefinition (Renaming.ofDeclarations ds) =
              "void main() \x7b area(1.0); \x7d".toList := by
  have hchecks : ∃ o ∈ (Outline.read Registry.shaderPath aliasShader).1.toOption,
      ∃ d ∈ o.declarations, ∃ i ∈ o.imports,
        (∃ subject ∈ d.subject.toOption, subject.containsWord i.localName = true) ∧
        o.imports.find? (·.id == i.id) = some i ∧
        (Registry.link aliasShader (sampleStore.afterLinks [])).1.isOk = true ∧
        ∃ p ∈ (Registry.collect aliasShader (sampleStore.afterLinks [])).1.toOption,
          ∃ e ∈ p.2, unstamped e = unstamped d ∧
            e.resolvedDefinition (Renaming.ofDeclarations p.2) =
              "void main() \x7b area(1.0); \x7d".toList := by
    decide +kernel
  obtain ⟨o, ho, d, hd, i, hi, ⟨subject, hsubject, huse⟩, hfirst, hok, p, hp, e, he, hsame,
    hdefinition⟩ := hchecks
  have ho := toOption_eq_some_iff.1 ho
  obtain ⟨text, s', hlink⟩ := exists_eq_ok hok
  have hmain := refersTo_of_mentions ho hd (toOption_eq_some_iff.1 hsubject) hi huse
  have hlists : o.Lists i := ⟨i, hfirst, rfl⟩
  have hrefers := hmain.1.2 hlists
  obtain ⟨j, ds, s, hcollect, -, hbinds⟩ :=
    hmain.2 hrefers sampleStore [] aliasShader text s' fresh_sampleStore hlink
  have hp' := toOption_eq_some_iff.1 hp
  rw [hcollect] at hp'
  obtain rfl : (j, ds) = p := Except.ok.inj hp'
  exact ⟨fresh_sampleStore, o, ho, d, hd, i, hi, hlists, hrefers, j, ds, s, hcollect, e, he, hsame,
    hbinds e he hsame, hdefinition⟩

/-- Two imports of one function, and a variable that uses both. -/
def doubleImport : Text :=
  "import \x7b f as a, f as b \x7d from \"lib\";\nfloat x = a + b;".toList

/-- The second one is not listed. -/
theorem not_refersTo_doubleImport :
    ¬ ∀ o, (Outline.read "m".toList doubleImport).1 = .ok o → ∀ d ∈ o.declarations,
      ∀ subject, d.subject = .ok subject → ∀ i ∈ o.imports,
        subject.containsWord i.localName = true → d.RefersTo i := by
  intro h
  have hchecks : ∃ o ∈ (Outline.read "m".toList doubleImport).1.toOption,
      ∃ d ∈ o.declarations, ∃ i ∈ o.imports,
        (∃ subject ∈ d.subject.toOption, subject.containsWord i.localName = true) ∧
          ∀ r ∈ d.references, r.id = i.id → r.localName ≠ i.localName := by
    decide +kernel
  obtain ⟨o, ho, d, hd, i, hi, ⟨subject, hsubject, huse⟩, hnone⟩ := hchecks
  obtain ⟨r, hr, hid, hlocal⟩ := h o (toOption_eq_some_iff.1 ho) d hd subject
    (toOption_eq_some_iff.1 hsubject) i hi huse
  exact hnone r hr hid hlocal

end Mentioned

/-! ## What uniforms and global variables mention -/

/-- What the reference leads to is linked, and stands before the declaration; but two that use each
other in one module keep their order. -/
structure Declaration.ComesAfter (e : Declaration) (r : Reference) (ds ordered : List Declaration) :
    Prop where
  linked : ∃ c ∈ ds, c.id = r.id
  ordered : ∀ c ∈ ds, c.id = r.id → c.key ≠ e.key →
    ¬ (c.uses e.id ∧ c.path = e.path ∧ e.index < c.index) → [c, e].Sublist ordered

/-- What uniforms and global variables mention becomes a reference: the definition of each of them
that is read in a module has a layout, and when it is given its references, every name in sight that
the layout mentions is among them.  So what is declared under that name is linked wherever the
declaration is, in whatever shader and after whatever other shaders were, and stands before it. -/
theorem relate_mentioned {path code : Text} {o : Outline} (h : Outline.ofCode path code = .ok o)
    {d : Declaration} (hd : d ∈ o.declarations) (hkind : d.kind = .uniform ∨ d.kind = .global) :
    ∃ x : Layout, x.Suits d.kind ∧ d.definition = x.text ∧ d.name = x.name.word ∧
      ∃ d', d.relate (candidates o.declarations o.imports) = .ok d' ∧
        (∀ c ∈ candidates o.declarations o.imports,
          x.Mentions d.kind c.localName → c ∈ d'.references) ∧
        (∀ o', (Outline.read path code).1 = .ok o' → d' ∈ o'.declarations) ∧
        ∀ (s₀ : Store) codes shader text s', s₀.Fresh →
          Registry.link shader (s₀.afterLinks codes) = (.ok text, s') →
            ∃ j ds s ordered, Registry.collect shader (s₀.afterLinks codes) = (.ok (j, ds), s) ∧
              Precedence.sort ds = .ok ordered ∧
              text = linkedText (s.module j).remainder (Renaming.ofDeclarations ds) ordered ∧
              ∀ e ∈ ds, unstamped e = unstamped d' →
                ∀ r ∈ d'.references, e.ComesAfter r ds ordered := by
  obtain ⟨x, hsuits, hdefinition, hname, d', hd', hmentioned, hread⟩ :=
    exists_layout_of_ofCode h hd hkind
  refine ⟨x, hsuits, hdefinition, hname, d', hd', hmentioned, hread, ?_⟩
  intro s₀ codes shader text s' hs₀ hlink
  obtain ⟨j, ds, s, hcollect, htext, -, hcomplete⟩ := complete_afterLinks hs₀ hlink
  obtain ⟨ordered, hsort, rfl⟩ := linkedWith_eq_ok_iff.1 htext
  refine ⟨j, ds, s, ordered, hcollect, hsort, rfl, fun e he hsame r hr => ?_⟩
  have hr' : r ∈ e.references := (congrArg Declaration.references hsame :).symm ▸ hr
  refine ⟨hcomplete e he r hr', fun c hc hid hkey hlater => ?_⟩
  exact Precedence.sublist_of_uses hsort he hc (Precedence.uses_iff.2 ⟨r, hr', hid.symm⟩) hkey hlater

/-- The value of the last global variable names another one, which is linked before it. -/
theorem relate_mentioned_sized : sampleStore.Fresh ∧
    ∃ o, Outline.ofCode Registry.shaderPath sizedSource = .ok o ∧
      ∃ d ∈ o.declarations, d.kind = .global ∧ d.name = "steps".toList ∧
        (∃ x : Layout, x.Suits d.kind ∧ d.definition = x.text ∧ d.name = x.name.word) ∧
        ∃ d', d.relate (candidates o.declarations o.imports) = .ok d' ∧
          ∃ r ∈ d'.references, r.name = "BASE".toList ∧
            ∃ text s', Registry.link sizedSource (sampleStore.afterLinks []) = (.ok text, s') ∧
              ∃ j ds s ordered,
                Registry.collect sizedSource (sampleStore.afterLinks []) = (.ok (j, ds), s) ∧
                  Precedence.sort ds = .ok ordered ∧
                    ∃ e ∈ ds, unstamped e = unstamped d' ∧ e.ComesAfter r ds ordered := by
  have hchecks : ∃ o ∈ (Outline.ofCode Registry.shaderPath sizedSource).toOption,
      ∃ d ∈ o.declarations, (d.kind = .global ∧ d.name = "steps".toList) ∧
        ∃ d' ∈ (d.relate (candidates o.declarations o.imports)).toOption,
          (∃ r ∈ d'.references, r.name = "BASE".toList) ∧
          (Registry.link sizedSource (sampleStore.afterLinks [])).1.isOk = true ∧
          ∃ p ∈ (Registry.collect sizedSource (sampleStore.afterLinks [])).1.toOption,
            ∃ e ∈ p.2, unstamped e = unstamped d' := by
    decide +kernel
  obtain ⟨o, ho, d, hd, ⟨hkind, hname⟩, d', hd', ⟨r, hr, hbase⟩, hok, p, hp, e, he, hsame⟩ := hchecks
  have ho := toOption_eq_some_iff.1 ho
  have hd' := toOption_eq_some_iff.1 hd'
  obtain ⟨text, s', hlink⟩ := exists_eq_ok hok
  obtain ⟨x, hsuits, hdefinition, hword, d₁, hd₁, -, -, hlinked⟩ :=
    relate_mentioned ho hd (Or.inr hkind)
  obtain rfl : d₁ = d' := Except.ok.inj (hd₁.symm.trans hd')
  obtain ⟨j, ds, s, ordered, hcollect, hsort, -, hafter⟩ :=
    hlinked sampleStore [] sizedSource text s' fresh_sampleStore hlink
  have hp' := toOption_eq_some_iff.1 hp
  rw [hcollect] at hp'
  obtain rfl : (j, ds) = p := Except.ok.inj hp'
  exact ⟨fresh_sampleStore, o, ho, d, hd, hkind, hname, ⟨x, hsuits, hdefinition, hword⟩, d₁, hd', r,
    hr, hbase, text, s', hlink, j, ds, s, ordered, hcollect, hsort, e, he, hsame,
    hafter e he hsame r hr⟩

end ShaderLink
