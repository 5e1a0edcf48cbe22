import ShaderLink.Proofs.Passes
import ShaderLink.Proofs.Reading

/-!
# Faults of reading a module

Whatever the text of a module is, reading it fails with a parse fault in that module if at all
(`Fault.LocatedIn`), with one exception: where a struct declares several fields at once without a
type, the fault is none of the linker's own and says nothing of the module (`MissesFieldType`).
`read_faults` says that this is the only exception, and that it always is one.
-/

namespace ShaderLink

open Text Pattern

/-! ## Kinds of faults -/

/-- The family of the fault is that of parse faults, or a narrower one. -/
def Fault.IsParse (f : Fault) : Prop :=
  ∃ family, f.cause.family = some family ∧ Family.parse ∈ family.ancestry

/-- A parse fault in the module at a path. -/
structure Fault.LocatedIn (path : Text) (f : Fault) : Prop where
  isParse : f.IsParse
  path_eq : f.path = some path

theorem Fault.locatedIn_inModule {cause : Cause} {family : Family} (path : Text)
    (h : cause.family = some family) (hparse : Family.parse ∈ family.ancestry) :
    (cause.inModule path).LocatedIn path :=
  ⟨⟨family, h, hparse⟩, rfl⟩

theorem Fault.IsParse.locatedIn_within {f : Fault} (h : f.IsParse) (path : Text) :
    (f.within path).LocatedIn path := by
  obtain ⟨family, hfamily, hparse⟩ := h
  have hwithin : f.within path = { f with path := some path } := by
    unfold Fault.within
    rw [hfamily]
    cases family <;> first | rfl | exact absurd hparse (by decide)
  rw [hwithin]
  exact ⟨⟨family, hfamily, hparse⟩, rfl⟩

theorem not_locatedIn_missingFieldType (path : Text) :
    ¬ Cause.missingFieldType.fault.LocatedIn path := by
  rintro ⟨⟨family, hfamily, -⟩, -⟩
  cases hfamily

/-! ## Where computations fail -/

section Results

variable {ε ε' α β : Type}

theorem bind_eq_error_iff {x : Except ε α} {f : α → Except ε β} {e : ε} :
    (x >>= f) = .error e ↔ x = .error e ∨ ∃ a, x = .ok a ∧ f a = .error e := by
  cases x <;> simp [bind, Except.bind]

theorem mapError_eq_error_iff {x : Except ε α} {f : ε → ε'} {e : ε'} :
    x.mapError f = .error e ↔ ∃ e', x = .error e' ∧ f e' = e := by
  cases x <;> simp [Except.mapError]

theorem mapError_eq_ok_iff {x : Except ε α} {f : ε → ε'} {a : α} :
    x.mapError f = .ok a ↔ x = .ok a := by
  cases x <;> simp [Except.mapError]

theorem map_eq_error_iff {x : Except ε α} {f : α → β} {e : ε} :
    x.map f = .error e ↔ x = .error e := by
  cases x <;> simp [Except.map]

/-- The first that fails decides. -/
theorem mapM_eq_error_iff {f : α → Except ε β} {l : List α} {e : ε} :
    l.mapM f = .error e ↔
      ∃ as a bs, l = as ++ a :: bs ∧ (∀ x ∈ as, ∃ b, f x = .ok b) ∧ f a = .error e := by
  induction l with
  | nil => simp [pure, Except.pure]
  | cons a l ih =>
    rw [List.mapM_cons, bind_eq_error_iff]
    constructor
    · rintro (ha | ⟨b, hb, h⟩)
      · exact ⟨[], a, l, rfl, List.forall_mem_nil _, ha⟩
      · rcases bind_eq_error_iff.1 h with h | ⟨bs, -, h⟩
        · obtain ⟨as, c, cs, rfl, has, hc⟩ := ih.1 h
          exact ⟨a :: as, c, cs, rfl, List.forall_mem_cons.2 ⟨⟨b, hb⟩, has⟩, hc⟩
        · cases h
    · rintro ⟨as, c, cs, hl, has, hc⟩
      cases as with
      | nil =>
        obtain ⟨rfl, rfl⟩ := List.cons.inj hl
        exact Or.inl hc
      | cons d as =>
        obtain ⟨rfl, rfl⟩ := List.cons.inj hl
        obtain ⟨⟨b, hb⟩, has⟩ := List.forall_mem_cons.1 has
        refine Or.inr ⟨b, hb, bind_eq_error_iff.2 (Or.inl (ih.2 ⟨as, c, cs, rfl, has, hc⟩))⟩

end Results

/-! ### Computations with a state -/

section Computations

variable {ε σ α β : Type} {P : ε → Prop} {s : σ}

/-- If the computation fails, its fault has the property. -/
def FailsWith (P : ε → Prop) (r : Except ε α × σ) : Prop := ∀ e, r.1 = .error e → P e

theorem failsWith_ok {a : α} : FailsWith P (.ok a, s) := by
  rintro _ ⟨⟩

theorem failsWith_pure {a : α} : FailsWith P ((pure a : ExceptT ε (StateM σ) α) s) := failsWith_ok

theorem failsWith_throw {e : ε} (h : P e) :
    FailsWith P ((throw e : ExceptT ε (StateM σ) α) s) := by
  rintro _ ⟨⟩
  exact h

theorem failsWith_ofExcept {r : Except ε α} (h : ∀ e, r = .error e → P e) :
    FailsWith P ((ofExcept r : ExceptT ε (StateM σ) α) s) := by
  cases r with
  | ok a => exact failsWith_ok
  | error e =>
    rintro _ ⟨⟩
    exact h e rfl

theorem FailsWith.bind {m : ExceptT ε (StateM σ) α} {f : α → ExceptT ε (StateM σ) β}
    (h : FailsWith P (m s)) (hf : ∀ a s', FailsWith P (f a s')) :
    FailsWith P ((m >>= f) s) := by
  rw [bind_apply]
  revert h
  rcases m s with ⟨e | a, s'⟩
  · rintro h _ ⟨⟩
    exact h e rfl
  · exact fun _ => hf a s'

/-- The first of two computations fails, or the second one does behind it. -/
theorem fst_bind_eq_error_iff {m : ExceptT ε (StateM σ) α} {f : α → ExceptT ε (StateM σ) β}
    {e : ε} : ((m >>= f) s).1 = .error e ↔
      (m s).1 = .error e ∨ ∃ a s', m s = (.ok a, s') ∧ (f a s').1 = .error e := by
  rw [bind_apply]
  rcases m s with ⟨e' | a, s'⟩
  · refine ⟨fun h => Or.inl (by cases h; rfl), ?_⟩
    rintro (h | ⟨a, s, h, -⟩) <;> cases h
    rfl
  · refine ⟨fun h => Or.inr ⟨a, s', rfl, h⟩, ?_⟩
    rintro (h | ⟨a, s, h, hf⟩) <;> cases h
    exact hf

theorem failsWith_forM {l : List α} {f : α → ExceptT ε (StateM σ) PUnit}
    (h : ∀ a ∈ l, ∀ s, FailsWith P (f a s)) : FailsWith P (l.forM f s) := by
  induction l generalizing s with
  | nil => exact failsWith_pure
  | cons a l ih =>
    obtain ⟨ha, hl⟩ := List.forall_mem_cons.1 h
    exact (ha s).bind fun _ _ => ih hl

theorem failsWith_mapM {l : List α} {f : α → ExceptT ε (StateM σ) β}
    (h : ∀ a ∈ l, ∀ s, FailsWith P (f a s)) : FailsWith P (l.mapM f s) := by
  induction l generalizing s with
  | nil => exact failsWith_pure
  | cons a l ih =>
    obtain ⟨ha, hl⟩ := List.forall_mem_cons.1 h
    rw [List.mapM_cons]
    exact (ha s).bind fun _ _ => (ih hl).bind fun _ _ => failsWith_pure

theorem failsWith_forIn {l : List α} {f : α → PUnit → ExceptT ε (StateM σ) (ForInStep PUnit)}
    (h : ∀ a ∈ l, ∀ s, FailsWith P (f a ⟨⟩ s)) :
    FailsWith P ((forIn l PUnit.unit f : ExceptT ε (StateM σ) PUnit) s) := by
  induction l generalizing s with
  | nil => exact failsWith_pure
  | cons a l ih =>
    obtain ⟨ha, hl⟩ := List.forall_mem_cons.1 h
    rw [List.forIn_cons]
    refine (ha s).bind fun r s' => ?_
    cases r with
    | done b => exact failsWith_pure
    | yield b => exact ih hl

/-- Where the results of the steps do not depend on the state, that of the loop does not. -/
theorem fst_mapM {step : α → ExceptT ε (StateM σ) β} {f : α → Except ε β}
    (h : ∀ a s, (step a s).1 = f a) (l : List α) (s : σ) : (l.mapM step s).1 = l.mapM f := by
  induction l generalizing s with
  | nil => rfl
  | cons a l ih =>
    rw [List.mapM_cons, List.mapM_cons, bind_apply, ← h a s]
    rcases step a s with ⟨e | b, s'⟩
    · rfl
    · show ((l.mapM step >>= fun bs => pure (b :: bs)) s').1 =
        (l.mapM f >>= fun bs => pure (b :: bs))
      rw [bind_apply, ← ih s']
      rcases l.mapM step s' with ⟨_ | _, _⟩ <;> rfl

end Computations

/-! ## Parameters and fields -/

theorem Text.isParse_of_splitCommas {t : Text} {f : Fault} (h : splitCommas t = .error f) :
    f.IsParse := by
  unfold splitCommas at h
  split at h
  · cases h
  · cases h
    exact ⟨.unbalancedBrackets, rfl, by decide⟩

theorem Text.isParse_of_closingIndex {o c : Char} {t : Text} {start : Int} {f : Fault}
    (h : closingIndex o c t start = .error f) : f.IsParse := by
  unfold closingIndex at h
  simp only at h
  split at h
  · cases h
    exact ⟨.malformedBlock, rfl, by decide⟩
  · split at h
    · cases h
      exact ⟨.malformedBlock, rfl, by decide⟩
    · cases h

namespace Parameter

variable {t field body : Text} {f : Fault}

theorem isParse_of_ofText {i : Nat} (h : ofText i t = .error f) : f.IsParse := by
  unfold ofText at h
  split at h
  · cases h
    exact ⟨.parse, rfl, by decide⟩
  · cases h

theorem isParse_of_ofTextsFrom {i : Nat} {ts : List Text} (h : ofTextsFrom i ts = .error f) :
    f.IsParse := by
  induction ts generalizing i with
  | nil => cases h
  | cons t ts ih =>
    rcases bind_eq_error_iff.1 h with h | ⟨p, -, h⟩
    · exact isParse_of_ofText h
    · rcases bind_eq_error_iff.1 h with h | ⟨ps, -, h⟩
      · exact ih h
      · cases h

theorem isParse_of_ofList (h : ofList t = .error f) : f.IsParse := by
  unfold ofList at h
  simp only at h
  split at h
  · cases h
  · rcases bind_eq_error_iff.1 h with h | ⟨ts, -, h⟩
    · exact Text.isParse_of_splitCommas h
    · exact isParse_of_ofTextsFrom h

/-- There are several names, and in front of the first comma there are no two words: the type of all
of them is missing. -/
def LacksType (field : Text) : Prop :=
  ∃ first second others, splitCommas field = .ok (first :: second :: others) ∧
    first.words.length < 2

theorem separate_of_several {first second : Text} {others : List Text}
    (h : splitCommas field = .ok (first :: second :: others)) :
    if first.words.length < 2 then separate field = .error Cause.missingFieldType.fault
    else ∃ ts, separate field = .ok ts := by
  have hlen : first.words.length = first.words.reverse.length := List.length_reverse.symm
  unfold separate
  rw [h, hlen]
  simp only [bind, Except.bind]
  rcases first.words.reverse with _ | ⟨name, _ | ⟨type, ws⟩⟩
  · exact rfl
  · exact rfl
  · rw [if_neg (by simp)]
    exact ⟨_, rfl⟩

theorem separate_of_lacksType (h : LacksType field) :
    separate field = .error Cause.missingFieldType.fault := by
  obtain ⟨first, second, others, hsplit, hwords⟩ := h
  have hseveral := separate_of_several hsplit
  rwa [if_pos hwords] at hseveral

theorem separate_eq_error (h : separate field = .error f) :
    f.IsParse ∨ f = Cause.missingFieldType.fault ∧ LacksType field := by
  cases hsplit : splitCommas field with
  | error e =>
    unfold separate at h
    rw [hsplit] at h
    cases h
    exact Or.inl (Text.isParse_of_splitCommas hsplit)
  | ok parts =>
    rcases parts with _ | ⟨first, _ | ⟨second, others⟩⟩
    · simp [separate, hsplit, bind, Except.bind, pure, Except.pure] at h
    · simp [separate, hsplit, bind, Except.bind, pure, Except.pure] at h
    · have hseveral := separate_of_several hsplit
      split at hseveral
      · rename_i hwords
        rw [h] at hseveral
        cases hseveral
        exact Or.inr ⟨rfl, first, second, others, hsplit, hwords⟩
      · obtain ⟨ts, hts⟩ := hseveral
        rw [hts] at h
        cases h

/-- The declarations in the body of a struct. -/
def fieldsIn (body : Text) : List Text := ((body.split ';').map trim).filter (!·.isEmpty)

/-- The first declaration of fields that cannot be read is one without a type. -/
def FailsForType (body : Text) : Prop :=
  ∃ before field after, fieldsIn body = before ++ field :: after ∧
    (∀ x ∈ before, ∃ ts, separate x = .ok ts) ∧ LacksType field

theorem ofFields_of_failsForType (h : FailsForType body) :
    ofFields body = .error Cause.missingFieldType.fault := by
  obtain ⟨before, field, after, hfields, hbefore, hfield⟩ := h
  refine bind_eq_error_iff.2 (Or.inl (bind_eq_error_iff.2 (Or.inl ?_)))
  exact mapM_eq_error_iff.2 ⟨before, field, after, hfields, hbefore, separate_of_lacksType hfield⟩

theorem ofFields_eq_error (h : ofFields body = .error f) :
    f.IsParse ∨ f = Cause.missingFieldType.fault ∧ FailsForType body := by
  rcases bind_eq_error_iff.1 h with h | ⟨ts, -, h⟩
  · rcases bind_eq_error_iff.1 h with h | ⟨lists, -, h⟩
    · obtain ⟨before, field, after, hfields, hbefore, hfield⟩ := mapM_eq_error_iff.1 h
      exact (separate_eq_error hfield).imp_right fun ⟨hf, hlacks⟩ =>
        ⟨hf, before, field, after, hfields, hbefore, hlacks⟩
    · cases h
  · exact Or.inl (isParse_of_ofTextsFrom h)

end Parameter

/-! ## Imports, exports and functions -/

section Passes

variable {path : Text}

theorem locatedIn_of_libraryOf {library : Text} (h : libraryOf path = .ok library) :
    ∀ f, libraryOf path = .error f → f.LocatedIn path := by
  rintro f hf
  rw [h] at hf
  cases hf

theorem Pass.locatedIn_of_importEntries {library : Text} {m : Match} {f : Fault}
    (h : Pass.importEntries path library m = .error f) : f.LocatedIn path := by
  unfold importEntries at h
  split at h
  · cases h
    exact Fault.locatedIn_inModule path rfl (by decide)
  · obtain ⟨-, entry, -, -, -, hentry⟩ := mapM_eq_error_iff.1 h
    unfold importEntry at hentry
    split at hentry
    · cases hentry
      exact Fault.locatedIn_inModule path rfl (by decide)
    · cases hentry

theorem Pass.failsWith_imports (hpath : firstSegment path ≠ []) (code : Text) :
    FailsWith (Fault.LocatedIn path) (Pass.imports path code) := by
  unfold Pass.imports
  have hlibrary : libraryOf path = .ok (firstSegment path) := libraryOf_eq_ok_iff.2 ⟨rfl, hpath⟩
  refine (failsWith_ofExcept (locatedIn_of_libraryOf hlibrary)).bind fun library _ => ?_
  refine FailsWith.bind failsWith_ok fun code _ => ?_
  refine (failsWith_mapM fun m _ s => ?_).bind fun _ _ => failsWith_pure
  refine (failsWith_ofExcept fun _ => locatedIn_of_importEntries).bind fun _ _ => ?_
  exact FailsWith.bind failsWith_ok fun _ _ => failsWith_pure

theorem Pass.locatedIn_of_qualifier {q : Option Text} {f : Fault}
    (h : Pass.qualifier path q = .error f) : f.LocatedIn path := by
  unfold qualifier at h
  split at h
  · cases h
  · split at h
    · cases h
    · cases h
      exact Fault.locatedIn_inModule path rfl (by decide)

theorem Pass.failsWith_exportEntry (entry code : Text) :
    FailsWith (Fault.LocatedIn path) (Pass.exportEntry path entry code) := by
  unfold exportEntry
  cases Statement.exportEntry.search entry with
  | none => exact failsWith_throw (Fault.locatedIn_inModule path rfl (by decide))
  | some m =>
    refine (failsWith_ofExcept fun _ => locatedIn_of_qualifier).bind fun _ _ => ?_
    cases m.group? 3 with
    | none => exact failsWith_pure
    | some newName =>
      refine FailsWith.bind failsWith_ok fun code s => ?_
      split
      · refine (failsWith_throw ?_).bind fun _ _ => failsWith_ok
        exact Fault.locatedIn_inModule path rfl (by decide)
      · exact failsWith_ok

theorem Pass.failsWith_exports (code : Text) :
    FailsWith (Fault.LocatedIn path) (Pass.exports path code) := by
  unfold Pass.exports
  refine FailsWith.bind failsWith_ok fun code _ => ?_
  refine (failsWith_forM fun m _ s => ?_).bind fun _ _ => ?_
  · exact failsWith_ok
  · refine (failsWith_mapM fun m _ s => ?_).bind fun _ _ => failsWith_pure
    exact failsWith_mapM fun entry _ s => failsWith_exportEntry entry s

theorem Pass.locatedIn_of_functionExtent {code : Text} {m : Match} {f : Fault}
    (h : Pass.functionExtent path code m = .error f) : f.LocatedIn path := by
  obtain ⟨f, hf, rfl⟩ := mapError_eq_error_iff.1 h
  refine Fault.IsParse.locatedIn_within ?_ path
  rcases bind_eq_error_iff.1 hf with hf | ⟨stop, -, hf⟩
  · exact Text.isParse_of_closingIndex hf
  · rcases bind_eq_error_iff.1 hf with hf | ⟨ps, -, hf⟩
    · exact Parameter.isParse_of_ofList hf
    · cases hf

theorem Pass.failsWith_functionsFrom (fuel : Nat) (code : Text) :
    FailsWith (Fault.LocatedIn path) (Pass.functionsFrom path fuel code) := by
  induction fuel generalizing code with
  | zero => exact failsWith_ok
  | succ fuel ih =>
    unfold functionsFrom
    refine FailsWith.bind failsWith_ok fun code s => ?_
    cases Form.functionHead.search code with
    | none => exact failsWith_ok
    | some m =>
      refine (failsWith_ofExcept fun _ => locatedIn_of_functionExtent).bind fun _ s => ?_
      exact FailsWith.bind failsWith_ok fun _ s => (ih s).bind fun _ _ => failsWith_pure

theorem Pass.failsWith_functions (code : Text) :
    FailsWith (Fault.LocatedIn path) (Pass.functions path code) :=
  FailsWith.bind failsWith_ok fun _ s => failsWith_functionsFrom _ s

/-- A pass that takes out what is one match of a form does not fail. -/
theorem Pass.failsWith_matched (P : Fault → Prop) (kind : Kind) (form : Pattern) (code : Text) :
    FailsWith P (Pass.matched kind form path code) := by
  unfold matched
  refine FailsWith.bind failsWith_ok fun code s => ?_
  exact (failsWith_forM fun _ _ _ => failsWith_ok).bind fun _ _ => failsWith_pure

theorem Pass.failsWith_defines (P : Fault → Prop) (code : Text) :
    FailsWith P (Pass.defines path code) := by
  unfold defines
  refine FailsWith.bind failsWith_ok fun code s => ?_
  exact failsWith_mapM fun _ _ _ => failsWith_ok

/-- Until it is the turn of the structs only parse faults in the module come up. -/
theorem Pass.failsWith_upTo_struct (hpath : firstSegment path ≠ []) (code : Text) :
    FailsWith (Fault.LocatedIn path) (Pass.upTo path .struct code) := by
  have hstatements : ∀ s, FailsWith (Fault.LocatedIn path) (Pass.statements path s) := fun s =>
    (failsWith_imports hpath s).bind fun _ s' => (failsWith_exports s').bind fun _ _ =>
      failsWith_pure
  refine (hstatements code).bind fun _ s => ?_
  refine failsWith_forM fun kind hkind s => FailsWith.bind ?_ fun _ _ => failsWith_pure
  have hearlier : kind = .function ∨ kind = .uniform ∨ kind = .global := by
    revert kind
    decide
  rcases hearlier with rfl | rfl | rfl
  · exact failsWith_functions s
  · exact failsWith_matched _ _ _ s
  · exact failsWith_matched _ _ _ s

end Passes

/-! ## Structs -/

section Structs

variable {path code : Text} {f : Fault}

/-- One struct after the other is read until one of them cannot be. -/
theorem Pass.fst_structs (path code : Text) : (Pass.structs path code).1 =
    (Form.structForm.sequence code).mapM fun m =>
      ((Parameter.ofFields (m.group 3)).mapError (Fault.within path)).map fun fields =>
        .ofSource .struct (m.group 2) path ↑(m.stop - (m.group 1).length) (m.group 1) fields := by
  unfold structs
  rw [bind_apply]
  refine fst_mapM (fun m s => ?_) _ code
  cases (Parameter.ofFields (m.group 3)).mapError (Fault.within path) <;> rfl

/-- In the code that is left for the structs, the first that cannot be read has a declaration of
several fields without a type. -/
def MissesFieldType (path code : Text) : Prop :=
  ∃ seen, codeFor path code .struct = .ok seen ∧
    ∃ before m after, Form.structForm.sequence seen = before ++ m :: after ∧
      (∀ x ∈ before, ∃ fields, Parameter.ofFields (x.group 3) = .ok fields) ∧
      Parameter.FailsForType (m.group 3)

theorem Pass.structs_eq_error (h : (Pass.structs path code).1 = .error f) :
    f.LocatedIn path ∨ f = Cause.missingFieldType.fault ∧
      ∃ before m after, Form.structForm.sequence code = before ++ m :: after ∧
        (∀ x ∈ before, ∃ fields, Parameter.ofFields (x.group 3) = .ok fields) ∧
        Parameter.FailsForType (m.group 3) := by
  rw [fst_structs] at h
  obtain ⟨before, m, after, hfound, hbefore, hm⟩ := mapM_eq_error_iff.1 h
  obtain ⟨f, hf, rfl⟩ := mapError_eq_error_iff.1 (map_eq_error_iff.1 hm)
  refine (Parameter.ofFields_eq_error hf).imp (fun hparse => hparse.locatedIn_within path) ?_
  rintro ⟨rfl, htype⟩
  refine ⟨rfl, before, m, after, hfound, fun x hx => ?_, htype⟩
  obtain ⟨d, hd⟩ := hbefore x hx
  cases hfields : Parameter.ofFields (x.group 3) with
  | ok fields => exact ⟨fields, rfl⟩
  | error e =>
    rw [hfields] at hd
    cases hd

theorem Pass.structs_of_failsForType {before after : List Match} {m : Match}
    (hfound : Form.structForm.sequence code = before ++ m :: after)
    (hbefore : ∀ x ∈ before, ∃ fields, Parameter.ofFields (x.group 3) = .ok fields)
    (hm : Parameter.FailsForType (m.group 3)) :
    (Pass.structs path code).1 = .error Cause.missingFieldType.fault := by
  rw [fst_structs]
  refine mapM_eq_error_iff.2 ⟨before, m, after, hfound, fun x hx => ?_, ?_⟩
  · obtain ⟨fields, hfields⟩ := hbefore x hx
    rw [hfields]
    exact ⟨_, rfl⟩
  · rw [Parameter.ofFields_of_failsForType hm]
    rfl

end Structs

/-! ## References -/

section References

variable {path : Text} {names : List Reference} {d : Declaration} {f : Fault}

theorem Declaration.locatedIn_of_parts {form : Pattern} (h : d.parts form = .error f) :
    f.LocatedIn d.path := by
  unfold parts at h
  split at h
  · cases h
  · cases h
    exact Fault.locatedIn_inModule _ rfl (by decide)

theorem Declaration.locatedIn_of_subject (h : d.subject = .error f) : f.LocatedIn d.path := by
  unfold subject at h
  split at h <;> rcases bind_eq_error_iff.1 h with h | ⟨m, -, h⟩ <;>
    first | exact locatedIn_of_parts h | cases h

/-- A declaration can be related to names if its subject can be read. -/
theorem Declaration.relate_eq_error_iff : d.relate names = .error f ↔ d.subject = .error f := by
  refine bind_eq_error_iff.trans ⟨?_, Or.inl⟩
  rintro (h | ⟨subject, -, h⟩)
  · exact h
  · cases h

theorem exists_of_relateAll_eq_error {ds : List Declaration}
    (h : (relateAll names ds).2.2 = .error f) : ∃ d ∈ ds, d.subject = .error f := by
  induction ds with
  | nil => cases h
  | cons d ds ih =>
    unfold relateAll at h
    cases hrelate : d.relate names with
    | error e =>
      rw [hrelate] at h
      cases h
      exact ⟨d, List.mem_cons_self, Declaration.relate_eq_error_iff.1 hrelate⟩
    | ok d' =>
      rw [hrelate] at h
      obtain ⟨e, he, hsubject⟩ := ih h
      exact ⟨e, List.mem_cons_of_mem _ he, hsubject⟩

/-- Adding the references fails only where the subject of a declaration cannot be read. -/
theorem Reader.failsWith_references {P : Fault → Prop} {s : Reading}
    (hs : ∀ d ∈ s.declarations, ∀ f, d.subject = .error f → P f) :
    FailsWith P (Reader.references s) := by
  let related := relateAll (candidates s.declarations s.imports) s.declarations
  show FailsWith _
    ((set { s with declarations := related.1, notices := s.notices ++ related.2.1 } >>=
      fun _ => ofExcept related.2.2 >>= fun _ => _ : Reader PUnit) s)
  refine FailsWith.bind failsWith_ok fun _ s' => ?_
  refine (failsWith_ofExcept fun f hf => ?_).bind fun _ s' => ?_
  · obtain ⟨d, hd, hsubject⟩ := exists_of_relateAll_eq_error hf
    exact hs d hd f hsubject
  · exact (failsWith_forIn fun _ _ _ => failsWith_ok).bind fun _ _ => failsWith_pure

end References

/-! ## Outlines -/

section Outlines

variable {path code : Text} {f : Fault}

theorem everything_of_missesFieldType (h : MissesFieldType path code) :
    (Pass.everything path code).1 = .error Cause.missingFieldType.fault := by
  obtain ⟨seen, hseen, before, m, after, hfound, hbefore, hm⟩ := h
  rw [Pass.everything_eq]
  refine fst_bind_eq_error_iff.2 (Or.inr ⟨_, _, codeFor_eq_ok_iff.1 hseen, ?_⟩)
  exact fst_bind_eq_error_iff.2 (Or.inl (Pass.structs_of_failsForType hfound hbefore hm))

theorem everything_eq_error (hpath : firstSegment path ≠ [])
    (h : (Pass.everything path code).1 = .error f) :
    f.LocatedIn path ∨ f = Cause.missingFieldType.fault ∧ MissesFieldType path code := by
  rw [Pass.everything_eq] at h
  rcases fst_bind_eq_error_iff.1 h with h | ⟨_, seen, hseen, h⟩
  · exact Or.inl (Pass.failsWith_upTo_struct hpath code f h)
  · rcases fst_bind_eq_error_iff.1 h with h | ⟨_, left, -, h⟩
    · refine (Pass.structs_eq_error h).imp_right fun ⟨hf, hm⟩ => ?_
      exact ⟨hf, seen, codeFor_eq_ok_iff.2 hseen, hm⟩
    · have hdefines : FailsWith (fun _ => False)
          ((Pass.defines path >>= fun _ => pure ()) left) :=
        (Pass.failsWith_defines _ left).bind fun _ _ => failsWith_pure
      exact (hdefines f h).elim

/-- Reading a module fails where the passes fail, or where the references are added. -/
theorem read_eq_error_iff : (Outline.read path code).1 = .error f ↔
    (Pass.everything path code).1 = .error f ∨
      ∃ u s, Reader.everything { toOutline := Outline.unread path code } = (.ok u, s) ∧
        (Reader.references s).1 = .error f := by
  let s₀ : Reading := { toOutline := Outline.unread path code }
  have hpasses : Pass.everything path code =
      ((Reader.everything s₀).1, (Reader.everything s₀).2.code) :=
    (Reader.follows_everything s₀).1
  have hread : (Outline.read path code).1 = .error f ↔
      ((Reader.everything >>= fun _ => Reader.references) s₀).1 = .error f := map_eq_error_iff
  rw [hread, hpasses]
  exact fst_bind_eq_error_iff

/-- Whatever the text of a module is: every fault of reading it is a parse fault in the module if
and only if reading does not come to a declaration of several fields without a type, and otherwise
the fault is that there is no type, which is none of the linker's own. -/
theorem read_faults {path code : Text} (hpath : firstSegment path ≠ []) :
    ((∀ f, (Outline.read path code).1 = .error f → f.LocatedIn path) ↔
      ¬ MissesFieldType path code) ∧
    (MissesFieldType path code →
      (Outline.read path code).1 = .error Cause.missingFieldType.fault ∧
        Cause.missingFieldType.family = none) := by
  have hmisses : MissesFieldType path code →
      (Outline.read path code).1 = .error Cause.missingFieldType.fault :=
    fun h => read_eq_error_iff.2 (Or.inl (everything_of_missesFieldType h))
  refine ⟨⟨fun hlocated h => ?_, fun hno f hf => ?_⟩, fun h => ⟨hmisses h, rfl⟩⟩
  · exact not_locatedIn_missingFieldType path (hlocated _ (hmisses h))
  · rcases read_eq_error_iff.1 hf with hf | ⟨_, s, hs, hf⟩
    · exact (everything_eq_error hpath hf).resolve_right fun h => hno h.2
    · have hgood : Reading.Good path { toOutline := Outline.unread path code } :=
        ⟨rfl, nofun, nofun⟩
      have hs := hgood.ends_everything.of_eq_ok hs
      refine Reader.failsWith_references (fun d hd e he => ?_) f hf
      exact (hs.declarations d hd).path_eq ▸ Declaration.locatedIn_of_subject he

/-- Two structs, of which the first has several fields of one type, and the second one without a
name. -/
def sampleFields : Text := "struct P { float x, y; };\nstruct Q { float; };\n".toList

theorem read_faults_sample :
    firstSegment "lib/m".toList ≠ [] ∧ ¬ MissesFieldType "lib/m".toList sampleFields ∧
      ∃ f, (Outline.read "lib/m".toList sampleFields).1 = .error f ∧
        f.LocatedIn "lib/m".toList := by
  have hpath : firstSegment "lib/m".toList ≠ [] := by decide
  have hread : (Outline.read "lib/m".toList sampleFields).1 =
      .error ((Cause.invalidParameter "float".toList).inModule "lib/m".toList) := by
    decide +kernel
  have hmisses : ¬ MissesFieldType "lib/m".toList sampleFields := by
    intro h
    have htype := ((read_faults hpath).2 h).1
    rw [hread] at htype
    cases htype
  exact ⟨hpath, hmisses, _, hread, (read_faults hpath).1.2 hmisses _ hread⟩

/-- Two fields without a type: the fault says nothing of the module. -/
theorem not_locatedIn_untypedFields :
    ¬ ∀ f, (Outline.read "m".toList "struct S { a, b; };".toList).1 = .error f →
      f.LocatedIn "m".toList := by
  intro h
  exact not_locatedIn_missingFieldType _ (h Cause.missingFieldType.fault (by decide +kernel))

end Outlines

end ShaderLink
