import Mathlib.Data.List.Nodup
import ShaderLink.Declaration
import ShaderLink.Table
import ShaderLink.Proofs.WholeWord

/-!
# Final names

In the linked text a declaration should have all its new names at once: its own in the place of the
first mention of its name, and for each reference the final name in the place of the local one
(`Declaration.simultaneous`).  `resolvedDefinition` writes them one after the other instead, and a
name that was written for one reference may be the local name of a later one.
`resolvedDefinition_eq_simultaneous_iff` says exactly when this does no harm;
`resolvedDefinition_swapped` is a declaration to which it does.
-/

namespace ShaderLink

namespace Text

/-! ## Changing the words of a text -/

variable {f : Text → Text}

/-- Words stand in the place of words, and all other characters have stayed. -/
inductive Run.Alike : Run → Run → Prop where
  | word {v w : Text} (h : IsIdentifier v → IsIdentifier w) : Alike (.word v) (.word w)
  | other (c : Char) : Alike (.other c) (.other c)

theorem Run.Alike.refl (r : Run) : r.Alike r := by
  cases r with
  | word w => exact .word fun h => h
  | other c => exact .other c

theorem Proper.opensWord_eq {rs rs' : List Run} (h : Proper rs)
    (hrs : List.Forall₂ Run.Alike rs rs') : opensWord (flatten rs') = opensWord (flatten rs) := by
  cases hrs with
  | nil => rfl
  | cons hr hrs =>
    cases hr with
    | other c => rfl
    | word hw => simp only [flatten_cons, Run.text, (hw h.1).opensWord, h.1.opensWord]

theorem Proper.of_alike {rs rs' : List Run} (h : Proper rs) (hrs : List.Forall₂ Run.Alike rs rs') :
    Proper rs' := by
  induction hrs with
  | nil => trivial
  | cons hr hrs ih =>
    cases hr with
    | other c => exact ⟨h.1, ih h.2⟩
    | word hw => exact ⟨hw h.1, (h.2.2.opensWord_eq hrs).trans h.2.1, ih h.2.2⟩

theorem alike_map (hf : ∀ w, IsIdentifier w → IsIdentifier (f w)) (rs : List Run) :
    List.Forall₂ Run.Alike rs (rs.map (Run.map f)) := by
  induction rs with
  | nil => exact .nil
  | cons r rs ih =>
    cases r with
    | other c => exact .cons (.other c) ih
    | word w => exact .cons (.word (hf w)) ih

theorem alike_exchangeFirst {old new : Text} (hnew : IsIdentifier new) (count : Nat)
    (rs : List Run) : List.Forall₂ Run.Alike rs (exchangeFirst old new count rs) := by
  induction rs generalizing count with
  | nil => cases count <;> exact .nil
  | cons r rs ih =>
    cases count with
    | zero => simp [exchangeFirst, List.forall₂_same, Run.Alike.refl]
    | succ count =>
      cases r with
      | other c => exact .cons (.other c) (ih _)
      | word w =>
        rw [exchangeFirst]
        split
        · exact .cons (.word fun _ => hnew) (ih _)
        · exact .cons (.word fun h => h) (ih _)

theorem exchange_self (w v : Text) : exchange w w v = v := by
  unfold exchange
  split
  · rename_i h
    exact h.symm
  · rfl

theorem Run.map_eq_self (hf : ∀ w, f w = w) (rs : List Run) : rs.map (Run.map f) = rs := by
  refine (List.map_congr_left fun r _ => ?_).trans (List.map_id rs)
  cases r with
  | word w => exact congrArg Run.word (hf w)
  | other c => rfl

theorem Run.map_map (g : Text → Text) (rs : List Run) :
    (rs.map (Run.map f)).map (Run.map g) = rs.map (Run.map fun w => g (f w)) := by
  rw [List.map_map]
  refine List.map_congr_left fun r _ => ?_
  cases r <;> rfl

/-- The first word that is the old name becomes the new one, and all others become `final`. -/
def writeNames (own : Option (Text × Text)) (final : Text → Text) : List Run → List Run
  | [] => []
  | .other c :: rs => .other c :: writeNames own final rs
  | .word v :: rs =>
    match own with
    | none => .word (final v) :: writeNames none final rs
    | some (old, new) =>
      if v = old then .word new :: writeNames none final rs
      else .word (final v) :: writeNames own final rs

theorem writeNames_none (final : Text → Text) (rs : List Run) :
    writeNames none final rs = rs.map (Run.map final) := by
  induction rs with
  | nil => rfl
  | cons r rs ih => cases r <;> simp [writeNames, ih]

theorem alike_writeNames {old new : Text} (hnew : IsIdentifier new)
    (hf : ∀ w, IsIdentifier w → IsIdentifier (f w)) (rs : List Run) :
    List.Forall₂ Run.Alike rs (writeNames (some (old, new)) f rs) := by
  induction rs with
  | nil => exact .nil
  | cons r rs ih =>
    cases r with
    | other c => exact .cons (.other c) ih
    | word w =>
      simp only [writeNames]
      split
      · rw [writeNames_none]
        exact .cons (.word fun _ => hnew) (alike_map hf rs)
      · exact .cons (.word (hf w)) ih

theorem map_eq_map_iff {g : Text → Text} {rs : List Run} :
    rs.map (Run.map f) = rs.map (Run.map g) ↔ ∀ v, .word v ∈ rs → f v = g v := by
  rw [List.map_inj_left]
  constructor
  · intro h v hv
    exact Run.word.inj (h _ hv)
  · rintro h (v | c) hr
    · exact congrArg Run.word (h v hr)
    · rfl

theorem map_exchangeFirst_eq_writeNames_iff {g : Text → Text} {old new : Text}
    (hold : f old = g old) {rs : List Run} :
    (exchangeFirst old new 1 rs).map (Run.map f) = writeNames (some (old, new)) g rs ↔
      (.word old ∈ rs → f new = new) ∧ ∀ v, .word v ∈ rs → f v = g v := by
  induction rs with
  | nil => simp [exchangeFirst, writeNames]
  | cons r rs ih =>
    cases r with
    | other c => simpa [exchangeFirst, writeNames] using ih
    | word v =>
      by_cases hv : v = old
      · subst hv
        simp only [exchangeFirst, writeNames, if_true, List.map_cons, Run.map_word,
          List.cons.injEq, Run.word.injEq, writeNames_none, map_eq_map_iff, List.mem_cons, true_or,
          forall_const]
        refine and_congr_right fun _ => ⟨?_, fun h u hu => h u (Or.inr hu)⟩
        rintro h u (rfl | hu)
        · exact hold
        · exact h u hu
      · simp only [exchangeFirst, writeNames, hv, if_false, List.map_cons, Run.map_word,
          List.cons.injEq, Run.word.injEq, ih, List.mem_cons]
        constructor
        · rintro ⟨hfv, hnew, hall⟩
          refine ⟨fun h => hnew (h.resolve_left fun e => hv e.symm), ?_⟩
          rintro u (rfl | hu)
          · exact hfv
          · exact hall u hu
        · rintro ⟨hnew, hall⟩
          exact ⟨hall v (Or.inl rfl), fun h => hnew (Or.inr h), fun u hu => hall u (Or.inr hu)⟩

end Text

namespace Declaration

open Text

/-! ## The names of references -/

/-- The name that a reference has in the linked text. -/
def finalName (renames : List (Text × Text)) (r : Reference) : Text :=
  (newName? renames r.id).getD r.name

/-- What becomes of a word when the names of references are written one after the other. -/
def carried (renames : List (Text × Text)) (rs : List Reference) (w : Text) : Text :=
  rs.foldl (fun w r => exchange r.localName (finalName renames r) w) w

/-- The final name of the reference that a word stands for, or else the word. -/
def finalWord (renames : List (Text × Text)) (rs : List Reference) (w : Text) : Text :=
  ((rs.find? (·.localName == w)).map (finalName renames)).getD w

/-- The definition with all new names written at once. -/
def simultaneous (d : Declaration) (renames : List (Text × Text)) : Text :=
  flatten (writeNames ((newName? renames d.id).map fun name => (d.name, name))
    (finalWord renames d.references) (runs d.definition))

/-- All names are identifiers, and the references have local names of their own. -/
structure WellNamed (d : Declaration) (renames : List (Text × Text)) : Prop where
  name : IsIdentifier d.name
  names : ∀ r ∈ d.references, IsIdentifier r.name
  localNames : ∀ r ∈ d.references, IsIdentifier r.localName
  distinct : (d.references.map (·.localName)).Nodup
  own : d.name ∉ d.references.map (·.localName)
  newNames : ∀ p ∈ renames, IsIdentifier p.2

instance (d : Declaration) (renames : List (Text × Text)) : Decidable (WellNamed d renames) :=
  decidable_of_iff
    (IsIdentifier d.name ∧ (∀ r ∈ d.references, IsIdentifier r.name) ∧
      (∀ r ∈ d.references, IsIdentifier r.localName) ∧
      (d.references.map (·.localName)).Nodup ∧ d.name ∉ d.references.map (·.localName) ∧
      ∀ p ∈ renames, IsIdentifier p.2)
    ⟨fun ⟨h₁, h₂, h₃, h₄, h₅, h₆⟩ => ⟨h₁, h₂, h₃, h₄, h₅, h₆⟩,
      fun h => ⟨h.name, h.names, h.localNames, h.distinct, h.own, h.newNames⟩⟩

variable {renames : List (Text × Text)}

theorem isIdentifier_newName (hr : ∀ p ∈ renames, IsIdentifier p.2) {id name : Text}
    (h : newName? renames id = some name) : IsIdentifier name := by
  unfold newName? at h
  split at h
  · cases h
  · cases h
  · rename_i name' _ hl
    cases h
    exact hr _ (Table.mem_of_get?_eq_some hl)

theorem isIdentifier_finalName (hr : ∀ p ∈ renames, IsIdentifier p.2) {r : Reference}
    (h : IsIdentifier r.name) : IsIdentifier (finalName renames r) := by
  unfold finalName
  cases hn : newName? renames r.id with
  | none => exact h
  | some name => exact isIdentifier_newName hr hn

theorem isIdentifier_exchange {old new w : Text} (hnew : IsIdentifier new) (hw : IsIdentifier w) :
    IsIdentifier (exchange old new w) := by
  unfold exchange
  split
  · exact hnew
  · exact hw

theorem isIdentifier_carried (hr : ∀ p ∈ renames, IsIdentifier p.2) {rs : List Reference}
    (hrs : ∀ r ∈ rs, IsIdentifier r.name) {w : Text} (hw : IsIdentifier w) :
    IsIdentifier (carried renames rs w) := by
  induction rs generalizing w with
  | nil => exact hw
  | cons r rs ih =>
    refine ih (fun s hs => hrs s (List.mem_cons_of_mem _ hs)) ?_
    exact isIdentifier_exchange (isIdentifier_finalName hr (hrs r List.mem_cons_self)) hw

theorem isIdentifier_finalWord (hr : ∀ p ∈ renames, IsIdentifier p.2) {rs : List Reference}
    (hrs : ∀ r ∈ rs, IsIdentifier r.name) {w : Text} (hw : IsIdentifier w) :
    IsIdentifier (finalWord renames rs w) := by
  unfold finalWord
  cases hf : rs.find? (·.localName == w) with
  | none => exact hw
  | some r => exact isIdentifier_finalName hr (hrs r (List.mem_of_find?_eq_some hf))

/-- Writing the name of one reference changes the words that are its local name. -/
theorem writeName_flatten {r : Reference} (hr : IsIdentifier r.localName) {rs : List Run}
    (hrs : Proper rs) :
    writeName renames (flatten rs) r =
      flatten (rs.map (Run.map (exchange r.localName (finalName renames r)))) := by
  unfold writeName finalName
  have hwrite : ∀ new, (flatten rs).replaceWord r.localName new =
      flatten (rs.map (Run.map (exchange r.localName new))) := by
    intro new
    rw [replaceWord_eq hr, runs_flatten hrs]
  have hsame : r.localName = r.name →
      flatten (rs.map (Run.map (exchange r.localName r.name))) = flatten rs := by
    intro h
    rw [h, Run.map_eq_self (exchange_self _)]
  cases hn : newName? renames r.id with
  | some name => exact hwrite name
  | none =>
    dsimp only [Option.getD_none]
    rcases ha : r.aliasName with _ | (_ | ⟨c, a⟩)
    · exact (hsame (by rw [Reference.localName, ha, nameOrAlias])).symm
    · exact (hsame (by rw [Reference.localName, ha, nameOrAlias])).symm
    · have hlocal : r.localName = c :: a := by simp only [Reference.localName, ha, nameOrAlias]
      show (flatten rs).replaceWord (c :: a) r.name = _
      rw [← hlocal]
      exact hwrite r.name

theorem foldl_writeName_flatten (hren : ∀ p ∈ renames, IsIdentifier p.2) {refs : List Reference}
    (hnames : ∀ r ∈ refs, IsIdentifier r.name) (hlocal : ∀ r ∈ refs, IsIdentifier r.localName)
    {rs : List Run} (hrs : Proper rs) :
    refs.foldl (writeName renames) (flatten rs) =
      flatten (rs.map (Run.map (carried renames refs))) := by
  induction refs generalizing rs with
  | nil =>
    exact congrArg flatten (Run.map_eq_self (fun w => rfl) rs).symm
  | cons r refs ih =>
    have hname := isIdentifier_finalName hren (hnames r List.mem_cons_self)
    rw [List.foldl_cons, writeName_flatten (hlocal r List.mem_cons_self) hrs,
      ih (fun s hs => hnames s (List.mem_cons_of_mem _ hs))
        (fun s hs => hlocal s (List.mem_cons_of_mem _ hs))
        (hrs.of_alike (alike_map (fun w hw => isIdentifier_exchange hname hw) rs)), Run.map_map]
    rfl

theorem carried_eq_self {rs : List Reference} {w : Text} (h : w ∉ rs.map (·.localName)) :
    carried renames rs w = w := by
  induction rs with
  | nil => rfl
  | cons r rs ih =>
    rw [List.map_cons, List.mem_cons, not_or] at h
    rw [carried, List.foldl_cons, exchange, if_neg h.1]
    exact ih h.2

/-- A word stays if it is no local name, and otherwise some final name comes out. -/
theorem carried_cases (rs : List Reference) (w : Text) :
    carried renames rs w = w ∧ w ∉ rs.map (·.localName) ∨
      ∃ r ∈ rs, carried renames rs w = finalName renames r := by
  induction rs generalizing w with
  | nil => exact Or.inl ⟨rfl, List.not_mem_nil⟩
  | cons r rs ih =>
    have hstep : carried renames (r :: rs) w =
        carried renames rs (exchange r.localName (finalName renames r) w) := rfl
    rw [hstep]
    by_cases hw : w = r.localName
    · rw [exchange, if_pos hw]
      rcases ih (finalName renames r) with ⟨hsame, -⟩ | ⟨s, hs, hfinal⟩
      · exact Or.inr ⟨r, List.mem_cons_self, hsame⟩
      · exact Or.inr ⟨s, List.mem_cons_of_mem _ hs, hfinal⟩
    · rw [exchange, if_neg hw]
      rcases ih w with ⟨hsame, hnot⟩ | ⟨s, hs, hfinal⟩
      · exact Or.inl ⟨hsame, List.not_mem_cons_of_ne_of_not_mem hw hnot⟩
      · exact Or.inr ⟨s, List.mem_cons_of_mem _ hs, hfinal⟩

theorem finalWord_eq_self {rs : List Reference} {w : Text} (h : w ∉ rs.map (·.localName)) :
    finalWord renames rs w = w := by
  have hnone : rs.find? (·.localName == w) = none := by
    rw [List.find?_eq_none]
    intro r hr he
    exact h (List.mem_map.2 ⟨r, hr, beq_iff_eq.1 he⟩)
  rw [finalWord, hnone]
  rfl

theorem carried_localName {earlier later : List Reference} {r : Reference}
    (h : r.localName ∉ earlier.map (·.localName)) :
    carried renames (earlier ++ r :: later) r.localName =
      carried renames later (finalName renames r) := by
  have hearlier : carried renames earlier r.localName = r.localName := carried_eq_self h
  rw [carried] at hearlier
  rw [carried, List.foldl_append, hearlier, List.foldl_cons, exchange, if_pos rfl]
  rfl

theorem finalWord_localName {earlier later : List Reference} {r : Reference}
    (h : r.localName ∉ earlier.map (·.localName)) :
    finalWord renames (earlier ++ r :: later) r.localName = finalName renames r := by
  have hnone : earlier.find? (·.localName == r.localName) = none := by
    rw [List.find?_eq_none]
    intro s hs he
    exact h (List.mem_map.2 ⟨s, hs, beq_iff_eq.1 he⟩)
  simp [finalWord, List.find?_append, hnone]

/-! ## Writing all names -/

theorem exists_localName_split {rs : List Reference} {w : Text}
    (h : w ∈ rs.map (·.localName)) (hrs : (rs.map (·.localName)).Nodup) :
    ∃ earlier r later, rs = earlier ++ r :: later ∧ r.localName = w ∧
      r.localName ∉ earlier.map (·.localName) := by
  obtain ⟨r, hr, rfl⟩ := List.mem_map.1 h
  obtain ⟨earlier, later, rfl⟩ := List.append_of_mem hr
  refine ⟨earlier, r, later, rfl, rfl, fun hmem => ?_⟩
  rw [List.map_append, List.map_cons] at hrs
  exact List.disjoint_of_nodup_append hrs hmem List.mem_cons_self

/-- One after the other is the same as all at once for those words that are no local name, and for
those local names whose final name is carried to itself. -/
theorem carried_eq_finalWord_iff {rs : List Reference} (hrs : (rs.map (·.localName)).Nodup)
    {P : Text → Prop} :
    (∀ w, P w → carried renames rs w = finalWord renames rs w) ↔
      ∀ earlier r later, rs = earlier ++ r :: later → P r.localName →
        carried renames later (finalName renames r) = finalName renames r := by
  constructor
  · rintro h earlier r later rfl hP
    rw [List.map_append, List.map_cons] at hrs
    have hnew : r.localName ∉ earlier.map (·.localName) := fun hmem =>
      List.disjoint_of_nodup_append hrs hmem List.mem_cons_self
    rw [← carried_localName hnew, ← finalWord_localName hnew]
    exact h _ hP
  · intro h w hP
    by_cases hw : w ∈ rs.map (·.localName)
    · obtain ⟨earlier, r, later, rfl, rfl, hnew⟩ := exists_localName_split hw hrs
      rw [carried_localName hnew, finalWord_localName hnew]
      exact h earlier r later rfl hP
    · rw [carried_eq_self hw, finalWord_eq_self hw]

variable {d : Declaration}

/-- The runs of the definition, with the new name of the declaration in the place of its own. -/
def ownRuns (d : Declaration) (renames : List (Text × Text)) : List Run :=
  match newName? renames d.id with
  | some name => exchangeFirst d.name name 1 (runs d.definition)
  | none => runs d.definition

theorem proper_ownRuns (hnew : ∀ p ∈ renames, IsIdentifier p.2) : Proper (d.ownRuns renames) := by
  unfold ownRuns
  cases hn : newName? renames d.id with
  | some name =>
    exact (proper_runs d.definition).of_alike
      (alike_exchangeFirst (isIdentifier_newName hnew hn) 1 _)
  | none => exact proper_runs d.definition

theorem resolvedDefinition_eq_runs (hname : IsIdentifier d.name)
    (hnames : ∀ r ∈ d.references, IsIdentifier r.name)
    (hlocal : ∀ r ∈ d.references, IsIdentifier r.localName)
    (hnew : ∀ p ∈ renames, IsIdentifier p.2) :
    d.resolvedDefinition renames =
      flatten ((d.ownRuns renames).map (Run.map (carried renames d.references))) := by
  have hwrite := foldl_writeName_flatten hnew hnames hlocal (proper_ownRuns (d := d) hnew)
  rw [← hwrite, resolvedDefinition, ownRuns]
  cases newName? renames d.id with
  | some name =>
    exact congrArg (d.references.foldl (writeName renames) ·)
      (replaceFirstWords_eq hname 1 d.definition name)
  | none =>
    exact congrArg (d.references.foldl (writeName renames) ·) (flatten_runs d.definition).symm

theorem resolvedDefinition_eq_flatten (h : WellNamed d renames) :
    d.resolvedDefinition renames =
      flatten (((match newName? renames d.id with
        | some name => exchangeFirst d.name name 1 (runs d.definition)
        | none => runs d.definition) : List Run).map
          (Run.map (carried renames d.references))) :=
  resolvedDefinition_eq_runs h.name h.names h.localNames h.newNames

/-- Writing the names one after the other is the same as writing them at once exactly if no later
reference takes a name that was written before it: neither the new name of the declaration, nor the
final name of a reference of which the definition makes use. -/
theorem resolvedDefinition_eq_simultaneous_iff (h : WellNamed d renames) :
    d.resolvedDefinition renames = d.simultaneous renames ↔
      (∀ name, newName? renames d.id = some name → d.definition.containsWord d.name →
        carried renames d.references name = name) ∧
      ∀ earlier r later, d.references = earlier ++ r :: later →
        d.definition.containsWord r.localName →
        carried renames later (finalName renames r) = finalName renames r := by
  have hcarried : ∀ w, IsIdentifier w → IsIdentifier (carried renames d.references w) :=
    fun w hw => isIdentifier_carried h.newNames h.names hw
  have hfinal : ∀ w, IsIdentifier w → IsIdentifier (finalWord renames d.references w) :=
    fun w hw => isIdentifier_finalWord h.newNames h.names hw
  have hproper := proper_runs d.definition
  have hwords : (∀ w, .word w ∈ runs d.definition →
        carried renames d.references w = finalWord renames d.references w) ↔
      ∀ earlier r later, d.references = earlier ++ r :: later →
        d.definition.containsWord r.localName →
        carried renames later (finalName renames r) = finalName renames r := by
    rw [carried_eq_finalWord_iff h.distinct]
    refine forall_congr' fun earlier => forall_congr' fun r => forall_congr' fun later =>
      forall_congr' fun he => ?_
    have hr : r ∈ d.references := by simp [he]
    rw [containsWord_iff (h.localNames r hr)]
  -- both texts are flattened runs, so they are equal exactly if the runs are
  rw [resolvedDefinition_eq_flatten h, simultaneous, ← hwords]
  cases hn : newName? renames d.id with
  | none =>
    simp only [Option.map_none, writeNames_none]
    rw [(flatten_inj (hproper.of_alike (alike_map hcarried _))
      (hproper.of_alike (alike_map hfinal _))), map_eq_map_iff]
    simp
  | some name =>
    have hname := isIdentifier_newName h.newNames hn
    have hown : carried renames d.references d.name = finalWord renames d.references d.name := by
      rw [carried_eq_self h.own, finalWord_eq_self h.own]
    have hfirst := hproper.of_alike (@alike_exchangeFirst d.name name hname 1 _)
    simp only [Option.map_some]
    rw [(flatten_inj (hfirst.of_alike (alike_map hcarried _))
      (hproper.of_alike (alike_writeNames hname hfinal _))),
      map_exchangeFirst_eq_writeNames_iff hown, ← containsWord_iff h.name]
    simp

/-- A global variable that uses something of the library, and something else of it. -/
def sampleSum (references : List Reference) : Declaration :=
  { kind := .global, name := "x".toList, path := "m".toList, index := 0,
    definition := "const float x = bar + foo;".toList, references }

/-- A reference to the library under another name. -/
def sampleReference (name aliasName : Text) : Reference :=
  { name, path := "lib".toList, origin := .imported, aliasName := some aliasName }

/-- `foo` is `baz` of the library, and `bar` is `foo` of it. -/
def sampleShifted : Declaration :=
  sampleSum [sampleReference "baz".toList "foo".toList, sampleReference "foo".toList "bar".toList]

theorem resolvedDefinition_shifted : WellNamed sampleShifted [] ∧
    sampleShifted.resolvedDefinition [] = sampleShifted.simultaneous [] := by
  have hnamed : WellNamed sampleShifted [] := by decide +kernel
  refine ⟨hnamed, (resolvedDefinition_eq_simultaneous_iff hnamed).2 ⟨by simp [newName?], ?_⟩⟩
  intro earlier r later h _
  rcases earlier with _ | ⟨a, _ | ⟨b, earlier⟩⟩
  · obtain ⟨rfl, rfl⟩ := List.cons.inj h
    decide
  · obtain ⟨rfl, rfl⟩ := List.cons.inj (List.cons.inj h).2
    decide
  · simp [sampleShifted, sampleSum] at h

/-- `bar` is `foo` of the library, and `foo` is `bar` of it. -/
def sampleSwapped : Declaration :=
  sampleSum [sampleReference "foo".toList "bar".toList, sampleReference "bar".toList "foo".toList]

/-- Both names end up as `bar`. -/
theorem resolvedDefinition_swapped : WellNamed sampleSwapped [] ∧
    sampleSwapped.resolvedDefinition [] = "const float x = bar + bar;".toList ∧
    sampleSwapped.simultaneous [] = "const float x = foo + bar;".toList :=
  ⟨by decide +kernel, by decide +kernel, by decide +kernel⟩

end Declaration

end ShaderLink
