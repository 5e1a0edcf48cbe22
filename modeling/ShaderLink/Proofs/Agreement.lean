import ShaderLink.Proofs.Faults
import ShaderLink.Proofs.Rereading

/-!
# What is found is read again

A declaration is found in the code with its parts (`Taken`).  What can mention other names is read
from its definition alone, from which the blanks at both ends are cut, by looking for the parts once
more (`Declaration.Rereads`).  The two readings agree for all kinds (`reread_of_ofCode`), except for
a macro without a text (`LacksText`): its form asks for blanks behind the name, and those are cut.
-/

namespace ShaderLink

open Text Pattern

/-! ## Parts -/

/-- The form that is looked for in a definition. -/
def Kind.rereadForm : Kind → Pattern
  | .function => Form.functionParts
  | .global => Form.globalForm
  | .struct => Form.structBody
  | .define => Form.defineForm
  | .uniform => Form.uniformForm

/-- What the form remembers of a declaration: type, name and value, the body, or the text. -/
def Kind.partsIn : Kind → Match → List Text
  | .function, m => [m.group 1, m.group 2]
  | .global, m => [m.group 2, m.group 3, m.group 4]
  | .struct, m => [m.group 1]
  | .define, m => [m.group 2, m.group 3, m.group 4]
  | .uniform, m => [m.group 2, m.group 3]

/-- The declaration is found in the code, and these are the parts that are found of it. -/
inductive Taken (path : Text) : Text → Declaration → List Text → Prop
  /-- A function goes from its head to the end of the block that opens first. -/
  | function {code front body : Text} {m : Match} {stop : Nat} {parameters : List Parameter}
      (hm : Form.functionHead.search code = some m)
      (hextent : Pass.functionExtent path code m = .ok (stop, parameters))
      (hblock : (code.take stop).drop m.start = front ++ '\x7b' :: (body ++ ['\x7d']))
      (hfront : '\x7b' ∉ front) :
      Taken path code (.ofSource .function (m.group 3) path m.start
        ((code.take stop).drop m.start) parameters) [m.group 2, body]
  /-- The next functions are looked for where the first one was taken out. -/
  | next {code : Text} {m : Match} {stop : Nat} {parameters : List Parameter} {d : Declaration}
      {parts : List Text} (hm : Form.functionHead.search code = some m)
      (hextent : Pass.functionExtent path code m = .ok (stop, parameters))
      (hkind : d.kind = .function) (h : Taken path (code.blankOut m.start stop) d parts) :
      Taken path code d parts
  | variable {code : Text} {m : Match} {kind : Kind} {form : Pattern}
      (hkind : kind.form? = some form) (hm : m ∈ form.sequence code) :
      Taken path code (.ofSource kind (m.group 3) path m.start m.text) (kind.partsIn m)
  | struct {code : Text} {m : Match} {fields : List Parameter}
      (hm : m ∈ Form.structForm.sequence code)
      (hfields : Parameter.ofFields (m.group 3) = .ok fields) :
      Taken path code (.ofSource .struct (m.group 2) path ↑(m.stop - (m.group 1).length) (m.group 1)
        fields) [m.group 3]
  | define {code : Text} {m : Match} (hm : m ∈ Form.defineForm.sequence code) :
      Taken path code (.ofSource .define (m.group 2) path ↑(m.stop - (m.group 1).length)
        (m.group 1)) [m.group 2, m.group 3, m.group 4]

namespace Declaration

/-- The definition can be read, and with these parts, up to blanks around them. -/
structure Rereads (d : Declaration) (parts : List Text) : Prop where
  subject : ∃ subject, d.subject = .ok subject
  parts : ∃ m, d.kind.rereadForm.search d.definition = some m ∧
    (d.kind.partsIn m).map Text.trim = parts.map Text.trim

/-- A macro of which nothing but the name and the parameters is left. -/
def LacksText (d : Declaration) : Prop := d.kind = .define ∧ IsBareMacro d.definition

variable {d : Declaration} {parts : List Text} {m : Match}

theorem exists_subject_of_search (h : d.kind.rereadForm.search d.definition = some m) :
    ∃ subject, d.subject = .ok subject := by
  have hparts : d.parts d.kind.rereadForm = .ok m := by
    unfold Declaration.parts
    rw [h]
  cases hsubject : d.subject with
  | ok subject => exact ⟨subject, rfl⟩
  | error e =>
    unfold Declaration.subject at hsubject
    split at hsubject <;> rename_i hkind <;> rw [hkind] at hparts <;>
      rcases bind_eq_error_iff.1 hsubject with h | ⟨m, -, h⟩ <;>
        first | exact nomatch hparts.symm.trans h | cases h

theorem rereads_of_search (h : d.kind.rereadForm.search d.definition = some m)
    (hparts : (d.kind.partsIn m).map Text.trim = parts.map Text.trim) : d.Rereads parts :=
  ⟨exists_subject_of_search h, m, h, hparts⟩

theorem not_lacksText (h : d.kind ≠ .define) : ¬ d.LacksText := fun hd => h hd.1

end Declaration

/-! ## Agreement -/

section Agreement

variable {path code : Text} {d : Declaration} {parts : List Text} {m : Match}

theorem Layout.ReadBy.trim_partsIn {x : Layout} {kind : Kind} {m m' : Match} (h : x.ReadBy kind m)
    (h' : x.ReadBy kind m') (hkind : kind = .global ∨ kind = .uniform) :
    (kind.partsIn m').map Text.trim = (kind.partsIn m).map Text.trim := by
  have htype : m'.group 2 = m.group 2 := h'.type.trans h.type.symm
  have hname : m'.group 3 = m.group 3 := h'.name.trans h.name.symm
  rcases hkind with rfl | rfl
  · obtain ⟨v, hv, hpadded⟩ := h.value rfl
    obtain ⟨v', hv', hpadded'⟩ := h'.value rfl
    obtain rfl := Option.some.inj (hv.symm.trans hv')
    have hvalue : (m'.group 4).trim = (m.group 4).trim :=
      hpadded'.trim_eq.symm.trans hpadded.trim_eq
    simp only [Kind.partsIn, List.map_cons, htype, hname, hvalue]
  · simp only [Kind.partsIn, htype, hname]

theorem rereads_variable {kind : Kind} {form : Pattern} (hkind : kind.form? = some form)
    (hm : m ∈ form.sequence code) :
    (Declaration.ofSource kind (m.group 3) path m.start m.text).Rereads (kind.partsIn m) := by
  obtain ⟨x, hx, m', hm', hx'⟩ := exists_layout_of_sequence hkind hm
  have hkinds : kind = .global ∨ kind = .uniform := by
    cases kind <;> cases hkind <;> simp
  have hform : kind.rereadForm = form := by
    cases kind <;> cases hkind <;> rfl
  have htrim : m.text.trim = m.text := hx.text ▸ x.trim_text
  refine Declaration.rereads_of_search (m := m') ?_ (hx.trim_partsIn hx' hkinds)
  show kind.rereadForm.search m.text.trim = some m'
  rw [hform, htrim, hm']

theorem rereads_struct {start : Int} {fields : List Parameter}
    (hm : m ∈ Form.structForm.sequence code) :
    (Declaration.ofSource .struct (m.group 2) path start (m.group 1) fields).Rereads
      [m.group 3] := by
  obtain ⟨b, start, t, m, offset, hhere, rfl⟩ := exists_here_of_sequence hm
  obtain ⟨htrim, m', hm', -, hbody⟩ := exists_reread_of_struct hhere
  refine Declaration.rereads_of_search (m := m') ?_ (congrArg (fun t : Text => [t.trim]) hbody)
  show Form.structBody.search (m.group 1).trim = some m'
  rw [htrim, hm']

theorem rereads_define_iff {start : Int} (hm : m ∈ Form.defineForm.sequence code) :
    let d := Declaration.ofSource .define (m.group 2) path start (m.group 1)
    d.Rereads [m.group 2, m.group 3, m.group 4] ↔ ¬ d.LacksText := by
  obtain ⟨b, start, t, m, offset, hhere, rfl⟩ := exists_here_of_sequence hm
  rcases reread_of_define hhere with ⟨hbare, m', hm', -, htwo, hthree, hfour⟩ | ⟨hbare, hother⟩
  · refine iff_of_true (Declaration.rereads_of_search (m := m') hm' ?_) fun h => hbare h.2
    show [(m'.group 2).trim, (m'.group 3).trim, (m'.group 4).trim] =
      [(m.group 2).trim, (m.group 3).trim, (m.group 4).trim]
    rw [htwo, hthree, hfour]
  · refine iff_of_false (fun h => ?_) fun h => h ⟨rfl, hbare⟩
    obtain ⟨m', hm', hparts⟩ := h.parts
    obtain ⟨-, htail⟩ := List.cons.inj hparts
    exact hother m' hm' (List.cons.inj htail).1

/-- The definition of a declaration says what was found of it, unless it is a macro without text. -/
theorem Taken.rereads_iff (h : Taken path code d parts) : d.Rereads parts ↔ ¬ d.LacksText := by
  induction h with
  | function hm hextent hblock hfront =>
    obtain ⟨htrim, m', hm', -, htype, hbody⟩ := exists_reread_of_function hm rfl hblock hfront
    refine iff_of_true (Declaration.rereads_of_search (m := m') ?_ ?_)
      (Declaration.not_lacksText nofun)
    · exact (congrArg Form.functionParts.search htrim).trans hm'
    · exact congrArg (List.map Text.trim) (by rw [← htype, ← hbody]; rfl)
  | next hm hextent hkind h ih => exact ih
  | «variable» hkind hm =>
    refine iff_of_true (rereads_variable hkind hm) (Declaration.not_lacksText ?_)
    rintro rfl
    cases hkind
  | struct hm hfields => exact iff_of_true (rereads_struct hm) (Declaration.not_lacksText nofun)
  | define hm => exact rereads_define_iff hm

end Agreement

/-! ## Passes -/

section Passes

variable {path code : Text}

/-- A declaration of the kind that is found in the code. -/
def FoundOf (kind : Kind) (path code : Text) (d : Declaration) : Prop :=
  d.kind = kind ∧ ∃ parts, Taken path code d parts

/-- What holds of a function that is found first, and of one that is found when others are taken out,
holds of all functions that are found. -/
theorem ends_functionsFrom_of {P : Text → Declaration → Prop}
    (hfirst : ∀ {code m stop parameters}, Form.functionHead.search code = some m →
      Pass.functionExtent path code m = .ok (stop, parameters) →
      P code (.ofSource .function (m.group 3) path m.start ((code.take stop).drop m.start)
        parameters))
    (hlater : ∀ {code m stop parameters d}, Form.functionHead.search code = some m →
      Pass.functionExtent path code m = .ok (stop, parameters) →
      P (code.blankOut m.start stop) d → P code d)
    (fuel : Nat) (code : Text) :
    Ends (fun found _ => ∀ d ∈ found, P code d) (fun _ => True)
      (Pass.functionsFrom path fuel code) := by
  induction fuel generalizing code with
  | zero => exact nofun
  | succ fuel ih =>
    unfold Pass.functionsFrom
    apply ends_bind.2
    apply ends_get.2
    cases hm : Form.functionHead.search code with
    | none => exact nofun
    | some m =>
      apply ends_bind.2
      apply ends_ofExcept.2
      refine ⟨fun extent hextent => ?_, fun _ _ => trivial⟩
      obtain ⟨stop, parameters⟩ := extent
      apply ends_bind.2
      apply ends_modify.2
      refine (ih (code.blankOut m.start stop)).bind fun others _ hothers => ?_
      exact List.forall_mem_cons.2 ⟨hfirst hm hextent, fun d hd =>
        hlater hm hextent (hothers d hd)⟩

theorem ends_functionsFrom (fuel : Nat) (code : Text) :
    Ends (fun found _ => ∀ d ∈ found, FoundOf .function path code d) (fun _ => True)
      (Pass.functionsFrom path fuel code) := by
  refine ends_functionsFrom_of (P := FoundOf .function path) (fun hm hextent => ⟨rfl, ?_⟩)
    (fun hm hextent hd => ?_) fuel code
  · obtain ⟨front, body, hblock, hfront⟩ :=
      exists_block_of_closingIndex (closingIndex_of_functionExtent hextent)
    exact ⟨_, .function hm hextent hblock hfront⟩
  · obtain ⟨hkind, parts, htaken⟩ := hd
    exact ⟨hkind, parts, .next hm hextent hkind htaken⟩

theorem ends_matched {kind : Kind} {form : Pattern} (hkind : kind.form? = some form) :
    Ends (fun found _ => ∀ d ∈ found, FoundOf kind path code d) (fun _ => True)
      (Pass.matched kind form path code) := by
  unfold Pass.matched
  apply ends_bind.2
  apply ends_get.2
  refine (ends_trivial _).bind fun _ _ _ => ?_
  intro d hd
  obtain ⟨m, hm, rfl⟩ := List.mem_map.1 hd
  exact ⟨rfl, _, .variable hkind hm⟩

theorem ends_structs : Ends (fun found _ => ∀ d ∈ found, FoundOf .struct path code d)
    (fun _ => True) (Pass.structs path code) := by
  unfold Pass.structs
  apply ends_bind.2
  apply ends_get.2
  refine (ends_mapM (I := fun _ => True) (fun m hm s _ => ?_) trivial).imp fun _ _ h => h.1
  apply ends_bind.2
  apply ends_ofExcept.2
  refine ⟨fun fields hfields => ⟨⟨rfl, _, .struct hm ?_⟩, trivial⟩, fun _ _ => trivial⟩
  exact mapError_eq_ok_iff.1 hfields

theorem ends_defines : Ends (fun found _ => ∀ d ∈ found, FoundOf .define path code d)
    (fun _ => True) (Pass.defines path code) := by
  unfold Pass.defines
  apply ends_bind.2
  apply ends_get.2
  refine (ends_mapM (I := fun _ => True) (fun m hm s _ => ?_) trivial).imp fun _ _ h => h.1
  exact ⟨⟨rfl, _, .define hm⟩, trivial⟩

/-- The pass for a kind finds declarations of that kind. -/
theorem Pass.ends_ofKind (kind : Kind) : Ends (fun found _ => ∀ d ∈ found, FoundOf kind path code d)
    (fun _ => True) (Pass.ofKind kind path code) := by
  cases kind with
  | function => exact ends_functionsFrom _ code
  | global => exact ends_matched rfl
  | struct => exact ends_structs
  | define => exact ends_defines
  | uniform => exact ends_matched rfl

end Passes

/-! ## Modules -/

section Modules

variable {path code : Text} {o : Outline}

theorem Declaration.IsFoundIn.exists_taken {kind : Kind} {d : Declaration}
    (h : d.IsFoundIn path code kind) :
    ∃ seen parts, codeFor path code d.kind = .ok seen ∧ Taken path seen d parts := by
  obtain ⟨seen, found, left, hseen, hfound, hd⟩ := h
  obtain ⟨rfl, parts, htaken⟩ := (Pass.ends_ofKind kind).of_eq_ok hfound d hd
  exact ⟨seen, parts, hseen, htaken⟩

theorem exists_everything_of_ofCode (h : Outline.ofCode path code = .ok o) :
    ∃ s, Reader.everything { toOutline := Outline.unread path code } = (.ok (), s) ∧
      s.toOutline = o := by
  unfold Outline.ofCode Outline.step at h
  revert h
  rcases Reader.everything { toOutline := Outline.unread path code } with ⟨e | u, s⟩
  · exact fun h => nomatch h
  · exact fun h => ⟨s, rfl, Except.ok.inj h⟩

/-- Where all subjects can be read, the outline can. -/
theorem exists_read_of_subjects (h : Outline.ofCode path code = .ok o)
    (hsubjects : ∀ d ∈ o.declarations, ∃ subject, d.subject = .ok subject) :
    ∃ o', (Outline.read path code).1 = .ok o' := by
  obtain ⟨s, hs, rfl⟩ := exists_everything_of_ofCode h
  cases hread : (Outline.read path code).1 with
  | ok o' => exact ⟨o', rfl⟩
  | error f =>
    rcases read_eq_error_iff.1 hread with hpasses | ⟨_, s', hs', hreferences⟩
    · have hfollows := (Reader.follows_everything { toOutline := Outline.unread path code }).1
      rw [hs] at hfollows
      exact nomatch hpasses.symm.trans (congrArg Prod.fst hfollows)
    · obtain rfl : s = s' := (Prod.mk.inj (hs.symm.trans hs')).2
      refine (Reader.failsWith_references (P := fun _ => False) (fun d hd e he => ?_) f
        hreferences).elim
      obtain ⟨subject, hsubject⟩ := hsubjects d hd
      exact nomatch hsubject.symm.trans he

/-- Whatever the text of a module is: the definition of each declaration that is found says again
what was found, if and only if it is no macro without a text.  So the references of a module with
no such macros can be added. -/
theorem reread_of_ofCode (h : Outline.ofCode path code = .ok o) :
    (∀ d ∈ o.declarations, ∃ seen parts, codeFor path code d.kind = .ok seen ∧
      Taken path seen d parts ∧ (d.Rereads parts ↔ ¬ d.LacksText)) ∧
    ((∀ d ∈ o.declarations, ¬ d.LacksText) → ∃ o', (Outline.read path code).1 = .ok o') := by
  have htaken : ∀ d ∈ o.declarations, ∃ seen parts, codeFor path code d.kind = .ok seen ∧
      Taken path seen d parts := fun d hd => by
    obtain ⟨kind, hkind⟩ := exists_isFoundIn_of_ofCode h d hd
    exact hkind.exists_taken
  refine ⟨fun d hd => ?_, fun htexts => exists_read_of_subjects h fun d hd => ?_⟩
  · obtain ⟨seen, parts, hseen, hparts⟩ := htaken d hd
    exact ⟨seen, parts, hseen, hparts, hparts.rereads_iff⟩
  · obtain ⟨seen, parts, -, hparts⟩ := htaken d hd
    exact (hparts.rereads_iff.2 (htexts d hd)).subject

/-- A module with a declaration of each kind. -/
def sampleKinds : Text :=
  ("#define PI 3.14 \nuniform highp float t;\nstruct P { vec2 a; };\nconst float g = PI * t ;\n" ++
    "P f(P p) { if (t > g) { return p; } return P(p.a); }\n").toList

theorem reread_of_ofCode_kinds :
    ∃ o, Outline.ofCode "m".toList sampleKinds = .ok o ∧
      o.declarations.map (·.kind) = [.function, .uniform, .global, .struct, .define] ∧
      ∀ d ∈ o.declarations, ∃ seen parts, codeFor "m".toList sampleKinds d.kind = .ok seen ∧
        Taken "m".toList seen d parts ∧ (d.Rereads parts ↔ ¬ d.LacksText) := by
  have hkinds : (Outline.ofCode "m".toList sampleKinds).map (fun o => o.declarations.map (·.kind)) =
      .ok [.function, .uniform, .global, .struct, .define] := by decide +kernel
  cases ho : Outline.ofCode "m".toList sampleKinds with
  | error e =>
    rw [ho] at hkinds
    cases hkinds
  | ok o =>
    rw [ho] at hkinds
    exact ⟨o, rfl, Except.ok.inj hkinds, (reread_of_ofCode ho).1⟩

/-- Nothing is wrong with a macro without a text until its references are to be added. -/
theorem not_read_bareMacro :
    ¬ ∀ o, Outline.ofCode "m".toList "#define FOO \n".toList = .ok o →
      ∃ o', (Outline.read "m".toList "#define FOO \n".toList).1 = .ok o' := by
  intro h
  have hfound : (Outline.ofCode "m".toList "#define FOO \n".toList).isOk = true := by decide +kernel
  have hfails : (Outline.read "m".toList "#define FOO \n".toList).1.isOk = false := by
    decide +kernel
  cases ho : Outline.ofCode "m".toList "#define FOO \n".toList with
  | error e =>
    rw [ho] at hfound
    cases hfound
  | ok o =>
    obtain ⟨o', ho'⟩ := h o ho
    rw [ho'] at hfails
    cases hfails

end Modules

end ShaderLink
