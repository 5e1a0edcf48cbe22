import ShaderLink.Link
import ShaderLink.Proofs.Pipelines

/-!
# Numbers do not matter

A source that is read again gives the same declarations with other numbers.  The numbers tell apart
what stands in different places, and nothing else depends on them: not where references lead to
(`Module.lookup_content`), nor the order of declarations (`Precedence.sort_unstamped`), nor their
new names, nor the text in which they are linked (`linkedWith_congr`).
-/

namespace ShaderLink

open LinkM Store

theorem filter_unstamped {p : Declaration → Bool} (hp : ∀ d, p (unstamped d) = p d)
    (ds : List Declaration) : (ds.map unstamped).filter p = (ds.filter p).map unstamped := by
  rw [List.filter_map]
  congr 2
  exact funext hp

theorem map_unstamped {α : Type} {f : Declaration → α} (hf : ∀ d, f (unstamped d) = f d)
    (ds : List Declaration) : (ds.map unstamped).map f = ds.map f := by
  rw [List.map_map]
  exact List.map_congr_left fun d _ => hf d

theorem Numbers.unstamped_eq {d d' : Declaration} (h : Numbers d d') :
    unstamped d' = unstamped d := by
  rw [h.1]
  rfl

theorem map_unstamped_of_numbers {ds ds' : List Declaration} (h : List.Forall₂ Numbers ds ds') :
    ds'.map unstamped = ds.map unstamped := by
  induction h with
  | nil => rfl
  | cons hd _ ih => rw [List.map_cons, List.map_cons, hd.unstamped_eq, ih]

/-! ## The order -/

namespace Precedence

variable (ds : List Declaration)

theorem used_unstamped (d : Declaration) :
    used (ds.map unstamped) (unstamped d) = (used ds d).map unstamped := by
  show d.references.flatMap _ = _
  rw [used, List.map_flatMap]
  congr 1
  funext r
  exact filter_unstamped (fun _ => rfl) ds

theorem before_unstamped (d : Declaration) :
    before (ds.map unstamped) (unstamped d) = before ds d := by
  have hmap : ∀ cs : List Declaration,
      (cs.map unstamped).mapM (required (unstamped d)) = cs.mapM (required d) := by
    intro cs
    induction cs with
    | nil => rfl
    | cons c cs ih =>
      rw [List.map_cons, List.mapM_cons, List.mapM_cons, ih]
      rfl
  rw [before, before, used_unstamped, hmap]

theorem ofDeclarations_unstamped : ofDeclarations (ds.map unstamped) = ofDeclarations ds := by
  rw [ofDeclarations, ofDeclarations, List.foldlM_map]
  congr 1
  funext g d
  rw [before_unstamped]
  rfl

theorem arrange_unstamped (order : List Text) :
    arrange order (ds.map unstamped) = (arrange order ds).map unstamped := by
  rw [arrange, arrange, List.map_flatMap]
  congr 1
  funext k
  exact filter_unstamped (fun _ => rfl) ds

theorem sort_unstamped : sort (ds.map unstamped) = (sort ds).map (List.map unstamped) := by
  rw [sort, sort, ofDeclarations_unstamped]
  cases ofDeclarations ds with
  | error fault => rfl
  | ok g =>
    show (do return arrange (← g.order) (ds.map unstamped) : Except Fault (List Declaration)) =
      Except.map _ (do return arrange (← g.order) ds)
    cases g.order with
    | error fault => rfl
    | ok order => exact congrArg Except.ok (arrange_unstamped ds order)

end Precedence

/-! ## The text -/

namespace Renaming

variable (ds : List Declaration)

theorem idsOf_unstamped (name : Text) : idsOf (ds.map unstamped) name = idsOf ds name := by
  rw [idsOf, idsOf, filter_unstamped (fun _ => rfl), map_unstamped fun _ => rfl]

theorem ofDeclarations_unstamped : ofDeclarations (ds.map unstamped) = ofDeclarations ds := by
  have hnames : names (ds.map unstamped) = names ds := by
    rw [names, names, map_unstamped fun _ => rfl]
  rw [ofDeclarations, ofDeclarations, hnames]
  congr 2
  funext name
  rw [renamesOf, renamesOf, idsOf_unstamped]

end Renaming

/-- The text in which declarations are linked, with the rest of the code of a module. -/
def linkedWith (remainder : Text) (ds : List Declaration) : Except Fault Text := do
  return linkedText remainder (Renaming.ofDeclarations ds) (← Precedence.sort ds)

theorem linkedWith_eq_ok_iff {remainder text : Text} {ds : List Declaration} :
    linkedWith remainder ds = .ok text ↔ ∃ ordered, Precedence.sort ds = .ok ordered ∧
      linkedText remainder (Renaming.ofDeclarations ds) ordered = text := by
  rw [linkedWith]
  cases Precedence.sort ds with
  | error fault => simp [bind, Except.bind]
  | ok ordered => simp [bind, Except.bind, pure, Except.pure]

/-- What is done once the declarations of a module are gathered: they are linked, and notices are
written. -/
theorem ends_linkModule_of_gather {Q : Text → Store → Prop} {E : Store → Prop} {i : ModuleId}
    {s : Store} (h : Ends (fun ds s₁ => ∀ s₂, Called [] s₁ s₂ →
      (∀ text, linkedWith (s₁.module i).remainder ds = .ok text → Q text s₂) ∧
        ∀ fault, linkedWith (s₁.module i).remainder ds = .error fault → E s₂) E (gather i s)) :
    Ends Q E (linkModule i s) := by
  unfold linkModule
  refine h.bind fun ds s₁ h₁ => (ends_notes_calls _).bind fun _ s₂ hnotes => ?_
  apply ends_bind.2
  apply ends_get.2
  rw [hnotes.toQuiet.module]
  have hrest : ∀ s₃, Called [] s₁ s₃ → Ends Q E
      ((do
        let ordered ← ofExcept (Precedence.sort ds)
        note (.resolved (s₁.module i).path (ordered.map (·.key)))
        return linkedText (s₁.module i).remainder (Renaming.ofDeclarations ds) ordered :
          LinkM Text) s₃) := by
    intro s₃ hcalled
    apply ends_bind.2
    apply ends_ofExcept.2
    refine ⟨fun ordered hordered => ?_, fun fault hfault => ?_⟩
    · apply ends_bind.2
      apply ends_modify.2
      exact (h₁ _ (hcalled.trans (called_note _))).1 _
        (linkedWith_eq_ok_iff.2 ⟨ordered, hordered, rfl⟩)
    · refine (h₁ s₃ hcalled).2 fault ?_
      rw [linkedWith, hfault]
      rfl
  by_cases hr : (!(Renaming.ofDeclarations ds).isEmpty) = true
  · rw [if_pos hr]
    apply ends_bind.2
    apply ends_modify.2
    exact hrest _ (hnotes.trans (called_note _))
  · rw [if_neg hr]
    exact hrest _ hnotes

theorem linkedWith_unstamped (remainder : Text) (ds : List Declaration) :
    linkedWith remainder (ds.map unstamped) = linkedWith remainder ds := by
  rw [linkedWith, linkedWith, Precedence.sort_unstamped, Renaming.ofDeclarations_unstamped]
  cases Precedence.sort ds with
  | error fault => rfl
  | ok ordered =>
    refine congrArg Except.ok ?_
    rw [linkedText, linkedText, partsOf, partsOf, map_unstamped fun _ => rfl]

theorem linkedWith_congr {ds ds' : List Declaration} (h : ds'.map unstamped = ds.map unstamped)
    (remainder : Text) : linkedWith remainder ds' = linkedWith remainder ds := by
  rw [← linkedWith_unstamped, h, linkedWith_unstamped]

/-! ## Modules -/

/-- What was read in the source of a module, without numbers. -/
def Module.content (m : Module) : Module where
  path := m.path
  source := m.source
  declarations := m.declarations.map unstamped
  imports := m.imports
  exports := m.exports
  remainder := m.remainder

/-- The references of declarations are the same with any numbers. -/
theorem Search.start_congr {ds ds' : List Declaration} (h : ds'.map unstamped = ds.map unstamped)
    (libraries : Table Text LibraryId) : start ds' libraries = start ds libraries := by
  have hstart : ∀ ds : List Declaration, start (ds.map unstamped) libraries =
      start ds libraries := by
    intro ds
    rw [start, start, references, references, List.flatMap_map, map_unstamped fun _ => rfl]
    rfl
  rw [← hstart, h, hstart]

namespace Module

variable {m m' : Module} {calls calls' : Calls}

theorem lookup_content (m : Module) (name : Text) (origin : Origin) (user : Text) :
    m.content.lookup name origin user = (m.lookup name origin user).map (List.map unstamped) := by
  have hfilter : m.content.declarations.filter (·.name == name) =
      (m.declarations.filter (·.name == name)).map unstamped :=
    filter_unstamped (fun _ => rfl) m.declarations
  have hcheck : m.content.checkExport name user = m.checkExport name user := rfl
  rw [lookup, lookup, hfilter, hcheck]
  generalize m.declarations.filter (·.name == name) = found
  by_cases ho : origin = .imported
  · rw [if_pos ho, if_pos ho]
    cases m.checkExport name user <;> cases found <;> rfl
  · rw [if_neg ho, if_neg ho]
    cases found <;> rfl

/-- What is read without plugins depends on nothing but the path and the source. -/
theorem ReadWith.content_eq (h : m.ReadWith [] calls) (h' : m'.ReadWith [] calls')
    (hpath : m'.path = m.path) (hsource : m'.source = m.source) : m'.content = m.content := by
  obtain ⟨code, o, hcode, ho, hds, himports, hexports, hremainder⟩ := h
  obtain ⟨code', o', hcode', ho', hds', himports', hexports', hremainder'⟩ := h'
  cases hcode
  cases hcode'
  rw [hpath, hsource] at ho'
  cases ho.symm.trans ho'
  rw [content, content, hpath, hsource, map_unstamped_of_numbers hds,
    map_unstamped_of_numbers hds', himports, himports', hexports, hexports', hremainder,
    hremainder']

end Module

end ShaderLink
