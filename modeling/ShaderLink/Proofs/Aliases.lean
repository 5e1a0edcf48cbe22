import ShaderLink.Proofs.Uses
import ShaderLink.Proofs.WholeWord

/-!
# Writing aliases in the place of uses

The uses of a namespace are replaced one after the other, each in the whole text, which does nothing
but turn dots into underscores (`turned_applyAliases`).  A use becomes its alias if no use that is
replaced before it occurs in it (`applyAliases_use`).  If it becomes one word at all, then some use
was standing in its whole place when the turn of that use came
(`exists_of_isIdentifier_applyAliases`).
-/

namespace ShaderLink.Namespaces

open Text Pattern

/-! ## Turning dots -/

/-- The second text is the first one with some of the dots behind words turned into underscores.
`inWord` says whether a word character stands in front. -/
inductive Turned : (inWord : Bool) → Text → Text → Prop
  | nil (b : Bool) : Turned b [] []
  | keep (b : Bool) (c : Char) {t t' : Text} : Turned (isWord c) t t' → Turned b (c :: t) (c :: t')
  | turn {t t' : Text} : Turned true t t' → Turned true ('.' :: t) ('_' :: t')

namespace Turned

variable {b b' : Bool} {t t' t'' s s' w : Text}

theorem refl (b : Bool) (t : Text) : Turned b t t := by
  induction t generalizing b with
  | nil => exact .nil b
  | cons c t ih => exact .keep b c (ih _)

theorem weaken (h : Turned false t t') (b : Bool) : Turned b t t' := by
  cases h with
  | nil => exact .nil b
  | keep _ c h => exact .keep b c h

theorem append (hs : Turned b s s') (ht : Turned false t t') : Turned b (s ++ t) (s' ++ t') := by
  induction hs with
  | nil b => exact ht.weaken b
  | keep b c _ ih => exact .keep b c ih
  | turn _ ih => exact .turn ih

theorem trans_of_imp (h : Turned b t t') (hb : b = true → b' = true) (h' : Turned b' t' t'') :
    Turned b' t t'' := by
  induction h generalizing b' t'' with
  | nil b => exact h'
  | keep b c _ ih =>
    cases h' with
    | keep _ _ h' => exact .keep b' c (ih id h')
    | turn h' => exact .turn (ih (fun _ => rfl) h')
  | turn _ ih =>
    obtain rfl := hb rfl
    cases h' with
    | keep _ _ h' => exact .turn (ih (fun _ => by decide) h')

theorem trans (h : Turned b t t') (h' : Turned b t' t'') : Turned b t t'' := h.trans_of_imp id h'

theorem antisymm (h : Turned b t t') (h' : Turned b' t' t) : t = t' := by
  induction h generalizing b' with
  | nil b => rfl
  | keep b c _ ih =>
    cases h' with
    | keep _ _ h' => rw [ih h']
  | turn _ ih => cases h'

theorem length_eq (h : Turned b t t') : t'.length = t.length := by
  induction h with
  | nil b => rfl
  | keep b c _ ih => rw [List.length_cons, List.length_cons, ih]
  | turn _ ih => rw [List.length_cons, List.length_cons, ih]

theorem opensWord_eq (h : Turned false t t') : opensWord t' = opensWord t := by
  cases h with
  | nil => rfl
  | keep _ c _ => rfl

theorem eq_nil_iff (h : Turned b t t') : t' = [] ↔ t = [] := by
  rw [← List.length_eq_zero_iff, h.length_eq, List.length_eq_zero_iff]

theorem closesWord (h : Turned b t t') (ht : closesWord t = true) : closesWord t' = true := by
  have hcons : ∀ {c d : Char} {t t' : Text}, (t' = [] ↔ t = []) → (isWord c → isWord d) →
      (Text.closesWord t = true → Text.closesWord t' = true) →
        Text.closesWord (c :: t) = true → Text.closesWord (d :: t') = true := by
    intro c d t t' hnil hcd ih ht
    by_cases he : t = []
    · rw [hnil.2 he]
      rw [he] at ht
      exact hcd ht
    · rw [← List.singleton_append, closesWord_append he] at ht
      rw [← List.singleton_append, closesWord_append (mt hnil.1 he)]
      exact ih ht
  induction h with
  | nil b => exact ht
  | keep b c h ih => exact hcons h.eq_nil_iff id ih ht
  | turn h ih => exact hcons h.eq_nil_iff (fun _ => by decide) ih ht

theorem aliasOf_eq (h : Turned b t t') : aliasOf t' = aliasOf t := by
  induction h with
  | nil b => rfl
  | keep b c _ ih => exact congrArg (_ :: ·) ih
  | turn _ ih => exact congrArg ('_' :: ·) ih

theorem word_append (hw : ∀ c ∈ w, isWord c = true) (hne : w ≠ []) (h : Turned true t t')
    (b : Bool) : Turned b (w ++ t) (w ++ t') := by
  induction w generalizing b with
  | nil => exact absurd rfl hne
  | cons c w ih =>
    rw [List.forall_mem_cons] at hw
    refine .keep b c ?_
    rw [hw.1]
    cases w with
    | nil => exact h
    | cons d w => exact ih hw.2 (List.cons_ne_nil d w) true

end Turned

theorem aliasOf_append (t u : Text) : aliasOf (t ++ u) = aliasOf t ++ aliasOf u := List.map_append

theorem aliasOf_of_forall_isWord {w : Text} (hw : ∀ c ∈ w, isWord c = true) : aliasOf w = w := by
  refine (List.map_congr_left fun c hc => if_neg ?_).trans (List.map_id w)
  rintro rfl
  exact absurd (hw _ hc) (by decide)

theorem turned_dotted {ws : List Text} (hws : ∀ w ∈ ws, IsIdentifier w) :
    Turned true (dotted ws) (aliasOf (dotted ws)) := by
  induction ws with
  | nil => exact .nil true
  | cons w ws ih =>
    rw [List.forall_mem_cons] at hws
    have halias : aliasOf (dotted (w :: ws)) = '_' :: (w ++ aliasOf (dotted ws)) := by
      rw [dotted_cons, aliasOf_append, aliasOf, List.map_cons]
      exact congrArg ('_' :: · ++ _) (aliasOf_of_forall_isWord hws.1.2)
    rw [halias]
    exact .turn ((ih hws.2).word_append hws.1.2 hws.1.1 true)

/-! ## Uses -/

section Uses

variable {name use t : Text} {ws : List Text} (hname : IsIdentifier name)

theorem runs_dotted_append (hws : ∀ w ∈ ws, IsIdentifier w) (ht : opensWord t = false) :
    runs (dotted ws ++ t) = dottedRuns ws ++ runs t := by
  induction ws with
  | nil => rfl
  | cons w ws ih =>
    rw [List.forall_mem_cons] at hws
    have hopen := opensWord_dotted_append ws ht
    rw [dotted_cons, List.append_assoc, List.cons_append, runs_other (by decide),
      runs_word hws.1 hopen, ih hws.2]
    rfl

include hname

theorem IsUse.runs_eq (hws : ∀ w ∈ ws, IsIdentifier w) :
    runs (name ++ dotted ws) = .word name :: dottedRuns ws := by
  have hrest : runs (dotted ws) = dottedRuns ws := by
    simpa [runs] using runs_dotted_append (t := []) hws rfl
  rw [runs_word hname (opensWord_dotted ws), hrest]

theorem IsUse.opensWord (h : IsUse name use) : opensWord use = true := by
  obtain ⟨ws, -, -, rfl⟩ := h
  exact hname.opensWord _

omit hname in
theorem closesWord_dotted (hne : ws ≠ []) (hws : ∀ w ∈ ws, IsIdentifier w) :
    closesWord (dotted ws) = true := by
  obtain ⟨vs, w, rfl⟩ := (List.eq_nil_or_concat ws).resolve_left hne
  have hw : IsIdentifier w := hws w (by simp)
  have hsplit : dotted (vs.concat w) = (dotted vs ++ ['.']) ++ w := by simp [dotted]
  rw [hsplit, closesWord_append hw.1]
  exact hw.closesWord

omit hname in
theorem IsUse.closesWord (h : IsUse name use) : closesWord use = true := by
  obtain ⟨ws, hne, hws, rfl⟩ := h
  have hclose := closesWord_dotted hne hws
  rwa [closesWord_append (ne_nil_of_closesWord hclose)]

theorem IsUse.turned (h : IsUse name use) : Turned false use (aliasOf use) := by
  obtain ⟨ws, -, hws, rfl⟩ := h
  rw [aliasOf_append, aliasOf_of_forall_isWord hname.2]
  exact (turned_dotted hws).word_append hname.2 hname.1 false

theorem IsUse.isIdentifier_aliasOf (h : IsUse name use) : IsIdentifier (aliasOf use) := by
  have hopen := h.opensWord hname
  refine ⟨mt List.map_eq_nil_iff.1 (ne_nil_of_opensWord hopen), ?_⟩
  obtain ⟨ws, -, hws, rfl⟩ := h
  intro d hd
  obtain ⟨c, hc, rfl⟩ := List.mem_map.1 hd
  split
  · decide
  · rename_i hdot
    rcases List.mem_append.1 hc with hc | hc
    · exact hname.2 c hc
    · obtain ⟨w, hw, hc⟩ := List.mem_flatMap.1 hc
      exact (hws w hw).2 c ((List.mem_cons.1 hc).resolve_left hdot)

/-- A use is not made of one word. -/
theorem IsUse.aliasOf_ne (h : IsUse name use) : aliasOf use ≠ use := by
  intro he
  have hword := (h.isIdentifier_aliasOf hname).2
  obtain ⟨ws, hne, -, rfl⟩ := h
  obtain ⟨w, ws, rfl⟩ := List.exists_cons_of_ne_nil hne
  have hdot : '.' ∈ name ++ dotted (w :: ws) := by simp
  exact absurd (hword '.' (by rwa [he])) (by decide)

/-! ## One replacement -/

/-- The runs in which a use is found begin with the name and a dot. -/
theorem IsUse.exists_runs (h : IsUse name use) :
    ∃ w rs, runs use = .word name :: .other '.' :: .word w :: rs := by
  obtain ⟨ws, hne, hws, rfl⟩ := h
  obtain ⟨w, ws, rfl⟩ := List.exists_cons_of_ne_nil hne
  exact ⟨w, _, IsUse.runs_eq hname hws⟩

theorem IsUse.occurrence_other (h : IsUse name use) (c : Char) (rs : List Run) :
    occurrence (runs use) (.other c :: rs) = 0 := by
  obtain ⟨w, us, hus⟩ := h.exists_runs hname
  refine occurrence_of_not_isPrefix fun hpre => ?_
  rw [hus] at hpre
  cases (List.cons_prefix_cons.1 hpre).1

theorem IsUse.replaceWord_eq (h : IsUse name use) (t new : Text) : t.replaceWord use new =
    (segments (occurrence (runs use)) (runs t)).flatMap (Sum.elim Run.text fun _ => new) :=
  replaceWord_eq_segments (h.opensWord hname) h.closesWord t new

theorem IsUse.turned_replaceWord (h : IsUse name use) (t : Text) :
    Turned false t (t.replaceWord use (aliasOf use)) := by
  have hruns : ∀ rs, Turned false (flatten rs) ((segments (occurrence (runs use)) rs).flatMap
      (Sum.elim Run.text fun _ => aliasOf use)) := by
    intro rs
    induction rs using segments_induction (occurrence_le (runs use)) with
    | nil =>
      rw [segments_nil]
      exact .nil false
    | kept r rs htake ih =>
      rw [segments_kept htake]
      exact (Turned.refl false r.text).append ih
    | taken us vs hne htake ih =>
      rw [segments_taken hne htake, flatten_append, eq_of_occurrence_eq_length hne htake,
        flatten_runs]
      exact (h.turned hname).append ih
  have hturned := hruns (runs t)
  rwa [flatten_runs, ← h.replaceWord_eq hname] at hturned

/-- If replacing a use changes nothing, it does not occur. -/
theorem IsUse.not_containsWord (h : IsUse name use)
    (ht : t.replaceWord use (aliasOf use) = t) : t.containsWord use = false := by
  have hkept : ∀ rs, (segments (occurrence (runs use)) rs).flatMap
      (Sum.elim Run.text fun _ => aliasOf use) = flatten rs →
        ∀ us, .inr us ∉ segments (occurrence (runs use)) rs := by
    intro rs
    induction rs using segments_induction (occurrence_le (runs use)) with
    | nil =>
      rw [segments_nil]
      exact fun _ _ => List.not_mem_nil
    | kept r rs htake ih =>
      rw [segments_kept htake]
      intro hsame us hus
      exact ih (List.append_cancel_left hsame) us ((List.mem_cons.1 hus).resolve_left nofun)
    | taken us vs hne htake ih =>
      rw [segments_taken hne htake, flatten_append, eq_of_occurrence_eq_length hne htake,
        flatten_runs]
      intro hsame
      have hlength : (aliasOf use).length = use.length := List.length_map _
      exact absurd (List.append_inj_left hsame hlength) (h.aliasOf_ne hname)
  refine Bool.eq_false_iff.2 fun hoccurs => ?_
  obtain ⟨us, hus⟩ := (containsWord_iff_segments (h.opensWord hname) h.closesWord).1 hoccurs
  rw [h.replaceWord_eq hname] at ht
  exact hkept (runs t) (ht.trans (flatten_runs t).symm) us hus

/-- A use does not occur in a word. -/
theorem IsUse.replaceWord_isIdentifier (h : IsUse name use) {w : Text} (hw : IsIdentifier w)
    (new : Text) : w.replaceWord use new = w := by
  have hruns : runs w = [.word w] := by simpa [runs] using runs_word hw opensWord_nil
  obtain ⟨v, us, hus⟩ := h.exists_runs hname
  have htake : occurrence (runs use) [.word w] = 0 := by
    refine occurrence_of_not_isPrefix fun hpre => ?_
    rw [hus] at hpre
    simpa using (List.cons_prefix_cons.1 hpre).2
  rw [h.replaceWord_eq hname, hruns, segments_kept htake, segments_nil]
  simp [Run.text]

/-- A word at the beginning, with another character behind it, stays if no use begins there. -/
theorem IsUse.replaceWord_word_append (h : IsUse name use) {w : Text} (hw : IsIdentifier w)
    {c : Char} (hc : isWord c = false) (hnot : ¬ runs use <+: runs (w ++ c :: t)) (new : Text) :
    (w ++ c :: t).replaceWord use new = w ++ c :: t.replaceWord use new := by
  have hruns : runs (w ++ c :: t) = .word w :: .other c :: runs t := by
    rw [runs_word hw (t := c :: t) hc, runs_other hc]
  rw [hruns] at hnot
  rw [h.replaceWord_eq hname, h.replaceWord_eq hname, hruns,
    segments_kept (occurrence_of_not_isPrefix hnot), segments_kept (h.occurrence_other hname c _)]
  rfl

end Uses

/-! ## One use and all replacements -/

section Place

variable {name use t : Text} {us : List Text} (hname : IsIdentifier name)

theorem applyAliases_cons (u : Text) (us : List Text) (t : Text) :
    applyAliases (u :: us) t = applyAliases us (t.replaceWord u (aliasOf u)) := rfl

theorem applyAliases_append (us vs : List Text) (t : Text) :
    applyAliases (us ++ vs) t = applyAliases vs (applyAliases us t) := List.foldl_append

include hname

theorem turned_applyAliases (hus : ∀ u ∈ us, IsUse name u) (t : Text) :
    Turned false t (applyAliases us t) := by
  induction us generalizing t with
  | nil => exact .refl false t
  | cons u us ih =>
    rw [List.forall_mem_cons] at hus
    exact (hus.1.turned_replaceWord hname t).trans (ih hus.2 _)

theorem applyAliases_isIdentifier (hus : ∀ u ∈ us, IsUse name u) {w : Text}
    (hw : IsIdentifier w) : applyAliases us w = w := by
  induction us with
  | nil => rfl
  | cons u us ih =>
    rw [List.forall_mem_cons] at hus
    rw [applyAliases_cons, hus.1.replaceWord_isIdentifier hname hw, ih hus.2]

theorem applyAliases_of_not_containsWord (hus : ∀ u ∈ us, IsUse name u)
    (h : ∀ u ∈ us, t.containsWord u = false) : applyAliases us t = t := by
  induction us with
  | nil => rfl
  | cons u us ih =>
    rw [List.forall_mem_cons] at hus h
    rw [applyAliases_cons, replaceWord_of_not_containsWord (hus.1.opensWord hname)
      hus.1.closesWord h.1, ih hus.2 h.2]

/-- A use becomes its alias if no use that is replaced before it occurs in it. -/
theorem applyAliases_use {pre post : List Text} (hus : ∀ u ∈ pre ++ use :: post, IsUse name u)
    (h : ∀ u ∈ pre, use.containsWord u = false) :
    applyAliases (pre ++ use :: post) use = aliasOf use := by
  rw [List.forall_mem_append, List.forall_mem_cons] at hus
  obtain ⟨hpre, huse, hpost⟩ := hus
  rw [applyAliases_append, applyAliases_of_not_containsWord hname hpre h, applyAliases_cons,
    replaceWord_self (huse.opensWord hname) huse.closesWord,
    applyAliases_isIdentifier hname hpost (huse.isIdentifier_aliasOf hname)]

/-- Replacements that leave a text as it is in the end never change it. -/
theorem not_containsWord_of_applyAliases_eq (hus : ∀ u ∈ us, IsUse name u)
    (h : applyAliases us t = t) : ∀ u ∈ us, t.containsWord u = false := by
  induction us with
  | nil => exact List.forall_mem_nil _
  | cons u us ih =>
    rw [List.forall_mem_cons] at hus
    have hback := turned_applyAliases hname hus.2 (t.replaceWord u (aliasOf u))
    rw [← applyAliases_cons, h] at hback
    have hsame := hback.antisymm (hus.1.turned_replaceWord hname t)
    rw [applyAliases_cons, hsame] at h
    exact List.forall_mem_cons.2 ⟨hus.1.not_containsWord hname hsame, ih hus.2 h⟩

/-- What begins with another word than the name, and goes on behind it, never becomes one word. -/
theorem not_isIdentifier_applyAliases (hus : ∀ u ∈ us, IsUse name u) {w : Text}
    (hw : IsIdentifier w) (hne : w ≠ name) {c : Char} (hc : isWord c = false) (t : Text) :
    ¬ IsIdentifier (applyAliases us (w ++ c :: t)) := by
  induction us generalizing t with
  | nil =>
    intro hword
    have hcword : isWord c = true := hword.2 c (by simp [applyAliases])
    rw [hc] at hcword
    cases hcword
  | cons u us ih =>
    rw [List.forall_mem_cons] at hus
    have hnot : ¬ runs u <+: runs (w ++ c :: t) := by
      intro hpre
      obtain ⟨v, rs, hrs⟩ := hus.1.exists_runs hname
      rw [hrs, runs_word hw (t := c :: t) hc] at hpre
      cases (List.cons_prefix_cons.1 hpre).1
      exact hne rfl
    rw [applyAliases_cons, hus.1.replaceWord_word_append hname hw hc hnot]
    exact ih hus.2 _

/-- If a text that begins with the name and another character becomes one word, some use stands in
its whole place when the turn of that use comes. -/
theorem exists_of_isIdentifier_applyAliases (hus : ∀ u ∈ us, IsUse name u) {c : Char}
    (hc : isWord c = false) (h : IsIdentifier (applyAliases us (name ++ c :: t))) :
    ∃ pre u post, us = pre ++ u :: post ∧ applyAliases pre (name ++ c :: t) = u := by
  induction us generalizing t with
  | nil =>
    have hcword : isWord c = true := h.2 c (by simp [applyAliases])
    rw [hc] at hcword
    cases hcword
  | cons u us ih =>
    rw [List.forall_mem_cons] at hus
    by_cases hpre : runs u <+: runs (name ++ c :: t)
    · obtain ⟨r, hr, hopen⟩ := (runs_isPrefix_iff hus.1.closesWord).1 hpre
      cases r with
      | nil => exact ⟨[], u, us, rfl, hr.trans (List.append_nil u)⟩
      | cons d r =>
        -- the alias stays, and so does what follows it
        have halias := hus.1.isIdentifier_aliasOf hname
        have hshort : aliasOf u ≠ name := by
          obtain ⟨ws, hne, -, rfl⟩ := hus.1
          obtain ⟨w, ws, rfl⟩ := List.exists_cons_of_ne_nil hne
          intro he
          have hlength := congrArg List.length he
          simp [aliasOf] at hlength
        have hcut : runs (u ++ d :: r) = runs u ++ .other d :: runs r := by
          rw [runs_append hopen, runs_other hopen]
        obtain ⟨v, rs, hrs⟩ := hus.1.exists_runs hname
        have hne : runs u ≠ [] := hrs ▸ List.cons_ne_nil _ _
        have htake : occurrence (runs u) (runs u ++ .other d :: runs r) = (runs u).length :=
          occurrence_of_isPrefix (List.prefix_append _ _)
        have hreplace : (u ++ d :: r).replaceWord u (aliasOf u) =
            aliasOf u ++ d :: replaceWord r u (aliasOf u) := by
          rw [hus.1.replaceWord_eq hname, hus.1.replaceWord_eq hname, hcut,
            segments_taken hne htake, segments_kept (hus.1.occurrence_other hname d _)]
          rfl
        rw [applyAliases_cons, hr, hreplace] at h
        exact absurd h (not_isIdentifier_applyAliases hname hus.2 halias hshort hopen _)
    · have hreplace := hus.1.replaceWord_word_append hname hname hc hpre (aliasOf u)
      rw [applyAliases_cons, hreplace] at h
      obtain ⟨pre, v, post, rfl, hv⟩ := ih hus.2 h
      refine ⟨u :: pre, v, post, rfl, ?_⟩
      rw [applyAliases_cons, hreplace, hv]

end Place

end ShaderLink.Namespaces
