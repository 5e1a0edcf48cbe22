import ShaderLink.Proofs.Commas
import ShaderLink.Proofs.Constraints
import ShaderLink.Proofs.Elsewhere

/-!
# Reading typed names

The parameters of a function and the fields of a struct are read from the pieces between commas or
semicolons.  Where each of them is a type and a name, they are all read
(`FunctionText.exists_parameters`, `StructText.exists_fields`); blanks around them make no
difference.
-/

namespace ShaderLink

open Text Pattern

/-! ## Declarators -/

namespace TypedName

/-- The type and the name, without the blanks around them. -/
def core (x : TypedName) : Text := x.type ++ (x.gap ++ x.name)

theorem core_ne_nil (x : TypedName) : x.core ≠ [] := by
  simp [core, x.isIdentifier_type.1]

theorem trim_core (x : TypedName) : x.core.trim = x.core := by
  have hword : ∀ {w : Text}, IsIdentifier w → ∀ c ∈ w, isBlank c = false := fun hw c hc =>
    isBlank_of_isSized (isSized_of_isWord (hw.2 c hc))
  refine trim_eq_self ?_ ?_
  · obtain ⟨c, w, hw⟩ := List.exists_cons_of_ne_nil x.isIdentifier_type.1
    intro d hd
    rw [core, hw] at hd
    cases hd
    exact hword x.isIdentifier_type _ (hw ▸ List.mem_cons_self)
  · rw [core, ← List.append_assoc]
    exact forall_mem_getLast?_append x.isIdentifier_name.1 (hword x.isIdentifier_name) _

theorem text_eq (x : TypedName) : x.text = x.lead ++ (x.core ++ x.trail) := by
  simp [text, words, core]

theorem trim_text (x : TypedName) : x.text.trim = x.core := by
  rw [text_eq, trim_append_left x.isBlank_lead, trim_append_right x.isBlank_trail, x.trim_core]

theorem isWordOrBlank_of_mem_text (x : TypedName) {c : Char} (hc : c ∈ x.text) :
    isWordOrBlank c = true := by
  by_contra hother
  exact x.not_mem_text (Bool.not_eq_true _ ▸ hother) hc

theorem isPiece_text (x : TypedName) : IsPiece x.text :=
  isPiece_of_isWordOrBlank fun _ => x.isWordOrBlank_of_mem_text

theorem isPiece_core (x : TypedName) : IsPiece x.core := by
  refine isPiece_of_isWordOrBlank fun c hc => x.isWordOrBlank_of_mem_text ?_
  simp only [text_eq, List.mem_append]
  exact Or.inr (Or.inl hc)

end TypedName

theorem blind_textEnd : Blind fun k => textEnd.run k some := by
  intro k gs _
  show (if k.atTextEnd then some (k.withGroups gs) else none).isSome ↔
    (if k.atTextEnd then some k else none).isSome
  cases k.atTextEnd <;> exact Iff.rfl

theorem TypedName.isSome_search (x : TypedName) : (Parameter.declarator.search x.core).isSome := by
  let p : Pattern := group 1 identifier ++ Pattern.gap ++ group 2 identifier ++ blanks ++
    optional (lit '[' ++ many (noneOf "]") ++ lit ']') ++ blanks
  have haccepts : p.Accepts x.core := by
    have hcore : x.core = x.type ++ x.gap ++ x.name ++ [] ++ [] ++ [] := by simp [core]
    exact ⟨_, [], ⟨_, [], ⟨_, [], ⟨_, x.name, ⟨x.type, x.gap,
      accepts_identifier.2 x.isIdentifier_type, accepts_gap.2 x.isGap, rfl⟩,
      accepts_identifier.2 x.isIdentifier_name, rfl⟩, nofun, rfl⟩, Or.inr rfl, rfl⟩, nofun, hcore⟩
  have hk : Cursor.Counts ⟨none, x.core, x.core.length, []⟩ := rfl
  have hrest : x.core = x.core ++ [] := (List.append_nil _).symm
  have hrun : (p.run ⟨none, x.core, x.core.length, []⟩ fun k => textEnd.run k some).isSome := by
    refine (isSome_run_iff rfl blind_textEnd hk).2 ⟨x.core, [], haccepts, hrest, ?_⟩
    rw [run_textEnd (Cursor.rest_after_of_eq hrest)]
    rfl
  obtain ⟨m, hm⟩ : ∃ m, Parameter.declarator.here none 0 x.core.length x.core = some m :=
    Option.isSome_iff_exists.1 ((Option.isSome_map ..).trans hrun)
  rw [search_eq_of_here hm]
  rfl

namespace Parameter

variable {xs : List TypedName}

theorem exists_ofText (index : Nat) (x : TypedName) : ∃ p, ofText index x.core = .ok p := by
  obtain ⟨m, hm⟩ := Option.isSome_iff_exists.1 x.isSome_search
  unfold ofText
  rw [x.trim_core, hm]
  exact ⟨_, rfl⟩

theorem exists_ofTexts (xs : List TypedName) : ∃ ps, ofTexts (xs.map TypedName.core) = .ok ps := by
  have hfrom : ∀ index, ∃ ps, ofTextsFrom index (xs.map TypedName.core) = .ok ps := by
    induction xs with
    | nil => exact fun _ => ⟨[], rfl⟩
    | cons x xs ih =>
      intro index
      obtain ⟨p, hp⟩ := exists_ofText index x
      obtain ⟨ps, hps⟩ := ih (index + 1)
      rw [List.map_cons, ofTextsFrom, hp, hps]
      exact ⟨p :: ps, rfl⟩
  exact hfrom 0

end Parameter

/-! ## Parameters and fields -/

theorem map_trim_map_text (xs : List TypedName) :
    (xs.map TypedName.text).map trim = xs.map TypedName.core := by
  rw [List.map_map]
  exact List.map_congr_left fun x _ => x.trim_text

/-- The parameters of a function can be read. -/
theorem FunctionText.exists_parameters (x : FunctionText) :
    ∃ ps, Parameter.ofList x.inside = .ok ps := by
  by_cases hnone : x.parameters = []
  · refine ⟨[], ?_⟩
    unfold inside
    rw [hnone]
    rfl
  have htexts : ∀ t ∈ x.parameters.map TypedName.text, IsPiece t ∧ t.trim ≠ [] := by
    intro t ht
    obtain ⟨p, -, rfl⟩ := List.mem_map.1 ht
    exact ⟨p.isPiece_text, p.trim_text ▸ p.core_ne_nil⟩
  have hsplit := splitCommas_trim_join (by simpa using hnone) (fun t ht => (htexts t ht).1)
    fun t ht => (htexts t ht).2
  rw [map_trim_map_text] at hsplit
  obtain ⟨ps, hps⟩ := Parameter.exists_ofTexts x.parameters
  unfold Parameter.ofList inside
  simp only
  split
  · exact ⟨[], rfl⟩
  · rw [hsplit]
    exact ⟨ps, hps⟩

theorem split_flatMap (xs : List TypedName) {b : Text} (hb : ';' ∉ b) :
    split ';' (xs.flatMap (fun x => x.text ++ [';']) ++ b) = xs.map TypedName.text ++ [b] := by
  induction xs with
  | nil => exact split_of_not_mem hb
  | cons x xs ih =>
    have hx : ';' ∉ x.text := x.not_mem_text (by decide)
    have hcons : (x :: xs).flatMap (fun x => x.text ++ [';']) ++ b =
        x.text ++ ';' :: (xs.flatMap (fun x => x.text ++ [';']) ++ b) := by simp
    rw [hcons, split_append hx, ih]
    rfl

theorem TypedName.separate_core (x : TypedName) : Parameter.separate x.core = .ok [x.core] := by
  have hsplit := splitCommas_trim_join (List.cons_ne_nil x.core [])
    (List.forall_mem_singleton.2 x.isPiece_core)
    (List.forall_mem_singleton.2 (x.trim_core.symm ▸ x.core_ne_nil))
  have hone : join [','] [x.core] = x.core := List.intercalate_singleton ..
  rw [hone, x.trim_core, List.map_singleton, x.trim_core] at hsplit
  unfold Parameter.separate
  rw [hsplit]
  rfl

/-- The fields of a struct can be read. -/
theorem StructText.exists_fields (x : StructText) :
    ∃ ps, Parameter.ofFields x.inside = .ok ps := by
  have hinner : x.inner.trim = [] := by
    rw [← List.append_nil x.inner, trim_append_left x.isBlank_inner]
    rfl
  have hfields : ((split ';' x.inside).map trim).filter (!·.isEmpty) =
      x.fields.map TypedName.core := by
    have hcores : ∀ t ∈ x.fields.map TypedName.core, (!t.isEmpty) = true := by
      intro t ht
      obtain ⟨y, -, rfl⟩ := List.mem_map.1 ht
      simpa using y.core_ne_nil
    rw [inside, split_flatMap _ (x.isBlank_inner.not_mem (by decide)), List.map_append,
      map_trim_map_text, List.map_singleton, hinner, List.filter_append,
      List.filter_eq_self.2 hcores]
    simp
  have hseparate : (x.fields.map TypedName.core).mapM Parameter.separate =
      .ok ((x.fields.map TypedName.core).map fun t => [t]) := by
    refine Precedence.mapM_eq_ok fun t ht => ?_
    obtain ⟨y, -, rfl⟩ := List.mem_map.1 ht
    exact y.separate_core
  have htexts : Parameter.fieldTexts x.inside = .ok (x.fields.map TypedName.core) := by
    unfold Parameter.fieldTexts
    simp only
    rw [hfields, hseparate]
    exact congrArg Except.ok (by rw [← List.flatMap_def, List.flatMap_singleton'])
  obtain ⟨ps, hps⟩ := Parameter.exists_ofTexts x.fields
  unfold Parameter.ofFields
  rw [htexts]
  exact ⟨ps, hps⟩

end ShaderLink
