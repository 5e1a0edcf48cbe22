import ShaderLink.Proofs.Forms
import ShaderLink.Proofs.WholeWord

/-!
# Names that uniforms and global variables mention

A uniform mentions the word of its type; a global variable mentions the word of its type and the
words of its value (`Layout.Mentions`).  Whatever uniform or global variable is read in a module,
its definition has a layout, and each name in sight that this mentions becomes one of the references
(`exists_layout_of_ofCode`).  Array sizes do not count, and neither does the value of a uniform
(`misses_sized`).
-/

namespace ShaderLink

/-- The word is the type, or stands in the value of a global variable. -/
def Layout.Mentions (x : Layout) (kind : Kind) (w : Text) : Prop :=
  w = x.type.word ∨ kind = .global ∧ ∃ v, x.value = some v ∧ .word w ∈ Text.runs v

section Subject

variable {d : Declaration} {x : Layout} {m : Match} {w : Text}

/-- Blanks around a text add no words to it. -/
theorem word_mem_runs_of_padded {v v' : Text} (h : v.Padded v') (hw : .word w ∈ Text.runs v') :
    .word w ∈ Text.runs v := by
  have hword : ∀ {b : Text}, b.AllBlank → ∀ c ∈ b, Text.isWord c = false :=
    fun hb c hc => Text.isWord_of_isBlank (hb c hc)
  obtain ⟨b, b', hb, hb', rfl⟩ := h
  have hopens : Text.opensWord b' = false := by
    cases b' with
    | nil => rfl
    | cons c b' => exact hword hb' c List.mem_cons_self
  have hlast : Text.runs b' = b'.map .other := by
    simpa [Text.runs] using Text.runs_others (hword hb') []
  rw [List.append_assoc, Text.runs_others (hword hb), Text.runs_append hopens, hlast] at hw
  simpa using hw

/-- All that is mentioned are words of the subject. -/
theorem exists_subject {form : Pattern} (hform : d.kind.form? = some form)
    (hm : form.search d.definition = some m) (hx : x.ReadBy d.kind m) :
    ∃ subject, d.subject = .ok subject ∧
      ∀ w, x.Mentions d.kind w → .word w ∈ Text.runs subject := by
  have htype : Text.runs x.type.word = [.word x.type.word] := by
    simpa [Text.runs] using Text.runs_word (t := []) x.type.isIdentifier rfl
  cases hkind : d.kind <;> rw [hkind] at hform <;> cases hform
  · obtain ⟨v, hvalue, hpadded⟩ := hx.value hkind
    refine ⟨m.group 2 ++ ' ' :: m.group 4, ?_, ?_⟩
    · simp [Declaration.subject, hkind, Declaration.parts, hm, Text.join, bind, Except.bind, pure,
        Except.pure]
    · rw [hx.type, Text.runs_append rfl, htype, Text.runs_other rfl]
      rintro w (rfl | ⟨-, v', hv', hw⟩)
      · exact List.mem_cons_self
      · obtain rfl : v = v' := Option.some.inj (hvalue.symm.trans hv')
        exact List.mem_cons_of_mem _ (List.mem_cons_of_mem _ (word_mem_runs_of_padded hpadded hw))
  · refine ⟨m.group 2, ?_, ?_⟩
    · simp [Declaration.subject, hkind, Declaration.parts, hm, bind, Except.bind, pure, Except.pure]
    · rw [hx.type, htype]
      rintro w (rfl | ⟨hglobal, -⟩)
      · exact List.mem_cons_self
      · cases hglobal

end Subject

section Relate

variable {d : Declaration} {names : List Reference} {subject : Text}

/-- A declaration without references gets all names whose words its subject has. -/
theorem exists_relate_eq_ok (hnames : (names.map (·.id)).Nodup) (hd : d.references = [])
    (hsubject : d.subject = .ok subject) :
    ∃ d', d.relate names = .ok d' ∧
      ∀ c ∈ names, .word c.localName ∈ Text.runs subject → c ∈ d'.references := by
  refine ⟨d.addReferences (names.filter (·.isMentionedIn subject)), ?_, ?_⟩
  · simp [Declaration.relate, hsubject, bind, Except.bind, pure, Except.pure]
  · intro c hc hword
    rw [references_addReferences, hd, List.nil_append, List.mem_filter]
    · have hidentifier : Text.IsIdentifier c.localName :=
        (Text.proper_runs subject).isIdentifier hword
      exact ⟨hc, (Text.containsWord_iff hidentifier subject).2 hword⟩
    · rw [hd, List.nil_append]
      exact hnames.sublist (List.filter_sublist.map _)

end Relate

/-- What uniforms and global variables mention becomes a reference: the definition of each of them
that is read in a module has a layout, and when it is given its references, every name in sight that
the layout mentions is among them. -/
theorem exists_layout_of_ofCode {path code : Text} {o : Outline}
    (h : Outline.ofCode path code = .ok o) {d : Declaration} (hd : d ∈ o.declarations)
    (hkind : d.kind = .uniform ∨ d.kind = .global) :
    ∃ x : Layout, x.Suits d.kind ∧ d.definition = x.text ∧ d.name = x.name.word ∧
      ∃ d', d.relate (candidates o.declarations o.imports) = .ok d' ∧
        (∀ c ∈ candidates o.declarations o.imports,
          x.Mentions d.kind c.localName → c ∈ d'.references) ∧
        ∀ o', (Outline.read path code).1 = .ok o' → d' ∈ o'.declarations := by
  obtain ⟨s, hs, rfl⟩ := good_of_ofCode h
  have hread := hs.declarations d hd
  obtain ⟨form, hform⟩ : ∃ form, d.kind.form? = some form := by
    rcases hkind with hkind | hkind <;> exact ⟨_, by rw [hkind]; rfl⟩
  obtain ⟨text, m, hm, hname, hdefinition⟩ := hread.matched form hform
  obtain ⟨x, hx, m', hm', hx'⟩ := exists_layout_of_sequence hform hm
  have htext : d.definition = m.text := by
    rw [hdefinition, hx.text, x.trim_text]
  rw [← htext] at hm'
  obtain ⟨subject, hsubject, hmentions⟩ := exists_subject hform hm' hx'
  obtain ⟨d', hd', hrecorded⟩ := exists_relate_eq_ok
    (nodup_candidates s.declarations s.imports)
    (List.eq_nil_iff_forall_not_mem.2 fun r hr => List.not_mem_nil (hread.references r hr))
    hsubject
  refine ⟨x, hx.suits, htext.trans hx.text, hname.trans hx.name, d', hd',
    fun c hc hmentioned => hrecorded c hc (hmentions _ hmentioned), fun o' ho' => ?_⟩
  obtain ⟨o, ho, -, notices, hrelated⟩ := exists_ofCode_of_read ho'
  rw [h] at ho
  cases ho
  exact mem_relateAll hrelated hd hd'

/-- A module in which array sizes and values name other declarations. -/
def sizedSource : Text :=
  "const int N = 3;\nconst float BASE = 1.0;\nuniform float speed[N] = BASE;\n".toList ++
    "const float steps[N] = float[3](BASE, BASE, BASE);\n".toList

/-- The uniform of the module: its size and its value name others. -/
def sizedSpeed : Declaration :=
  .ofSource .uniform "speed".toList ['m'] 41 "uniform float speed[N] = BASE;".toList

/-- The last global variable of the module: its size and its value name others. -/
def sizedSteps : Declaration :=
  .ofSource .global "steps".toList ['m'] 72
    "const float steps[N] = float[3](BASE, BASE, BASE);".toList

/-- The outline of the module. -/
def sizedOutline : Outline where
  path := ['m']
  code := sizedSource.map fun c => if c = '\n' then c else ' '
  declarations := [sizedSpeed,
    .ofSource .global ['N'] ['m'] 0 "const int N = 3;".toList,
    .ofSource .global "BASE".toList ['m'] 17 "const float BASE = 1.0;".toList,
    sizedSteps]

theorem ofCode_sizedSource : Outline.ofCode ['m'] sizedSource = .ok sizedOutline := by
  decide +kernel

/-- A name in sight, of another declaration, is a word of the definition that is not its own name,
but it becomes no reference. -/
def Declaration.Misses (names : List Reference) (d : Declaration) (c : Reference) : Prop :=
  c ∈ names ∧ c.id ≠ d.id ∧ c.localName ≠ d.name ∧ d.definition.containsWord c.localName = true ∧
    ∃ d', d.relate names = .ok d' ∧ c ∉ d'.references

/-- Names in the value of a uniform or in an array size do not become references. -/
theorem misses_sized :
    Outline.ofCode ['m'] sizedSource = .ok sizedOutline ∧
      sizedSpeed ∈ sizedOutline.declarations ∧ sizedSpeed.kind = .uniform ∧
      sizedSpeed.Misses (candidates sizedOutline.declarations sizedOutline.imports)
        ⟨"BASE".toList, ['m'], .ambient, none⟩ ∧
      sizedSpeed.Misses (candidates sizedOutline.declarations sizedOutline.imports)
        ⟨['N'], ['m'], .ambient, none⟩ ∧
      sizedSteps ∈ sizedOutline.declarations ∧ sizedSteps.kind = .global ∧
      sizedSteps.Misses (candidates sizedOutline.declarations sizedOutline.imports)
        ⟨['N'], ['m'], .ambient, none⟩ := by
  have hspeed : sizedSpeed.relate (candidates sizedOutline.declarations sizedOutline.imports) =
      .ok sizedSpeed := by decide +kernel
  have hsteps : sizedSteps.relate (candidates sizedOutline.declarations sizedOutline.imports) =
      .ok { sizedSteps with references := [⟨"BASE".toList, ['m'], .ambient, none⟩] } := by
    decide +kernel
  refine ⟨ofCode_sizedSource, by decide, rfl, ?_, ?_, by decide, rfl, ?_⟩
  · exact ⟨by decide, by decide, by decide, by decide +kernel, _, hspeed, List.not_mem_nil⟩
  · exact ⟨by decide, by decide, by decide, by decide +kernel, _, hspeed, List.not_mem_nil⟩
  · exact ⟨by decide, by decide, by decide, by decide +kernel, _, hsteps, by decide⟩

end ShaderLink
