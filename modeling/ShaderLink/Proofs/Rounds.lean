import ShaderLink.Proofs.Expansion

/-!
# Expanding comes to an end

A round takes the first namespace import out of a text and writes import statements in its place, or
turns dots in it, if a use stands in its path; then it is not found again as it was.  What is
written stays where it is and no namespace import begins in it, whatever comes before and behind it
(`IsShut`), so only the rest of the text counts, which was given in the beginning (`Patched`).  Each
round takes at least one character other than an underscore away from that rest
(`Patched.expandOne`).  So there are at most as many rounds as characters: `expand_ends`.
-/

namespace ShaderLink

open Text Pattern

namespace Text

variable {old new t : Text}

/-- What replacing the first occurrence of a text does: it is either found or not. -/
theorem replaceFirst_cases (hold : old ≠ []) (new t : Text) :
    (∃ x y, t = x ++ (old ++ y) ∧ replaceFirst old new t = x ++ (new ++ y)) ∨
      ((∀ x y, t ≠ x ++ (old ++ y)) ∧ replaceFirst old new t = t) := by
  induction t with
  | nil =>
    refine Or.inr ⟨fun x y h => ?_, ?_⟩
    · have hnil := (List.append_eq_nil_iff.1 h.symm).2
      exact hold (List.append_eq_nil_iff.1 hnil).1
    · rw [replaceFirst, if_neg (by simpa using hold)]
  | cons c t ih =>
    rw [replaceFirst]
    by_cases hpre : old.isPrefixOf (c :: t) = true
    · rw [if_pos hpre]
      obtain ⟨y, hy⟩ := List.isPrefixOf_iff_prefix.1 hpre
      refine Or.inl ⟨[], y, hy.symm, ?_⟩
      rw [← hy, List.drop_left, List.nil_append]
    · rw [if_neg hpre]
      rcases ih with ⟨x, y, rfl, hxy⟩ | ⟨hno, hsame⟩
      · exact Or.inl ⟨c :: x, y, rfl, congrArg (c :: ·) hxy⟩
      · refine Or.inr ⟨fun x y h => ?_, congrArg (c :: ·) hsame⟩
        cases x with
        | nil => exact hpre (List.isPrefixOf_iff_prefix.2 ⟨y, h.symm⟩)
        | cons d x => exact hno x y (List.cons.inj h).2

end Text

namespace Namespaces

variable {b : Bool} {name path s s' t t' u v w x x' y y' new code code' : Text} {m : Match}
  {n k : ℕ} {us : List Text}

/-! ## Turning dots in parts of a text -/

theorem Turned.exists_append (h : Turned b (x ++ y) t') :
    ∃ x' y' c, t' = x' ++ y' ∧ Turned b x x' ∧ Turned c y y' := by
  induction x generalizing b t' with
  | nil => exact ⟨[], t', b, rfl, .nil b, h⟩
  | cons c x ih =>
    cases h with
    | keep _ _ h =>
      obtain ⟨x', y', d, rfl, hx, hy⟩ := ih h
      exact ⟨c :: x', y', d, rfl, .keep b c hx, hy⟩
    | turn h =>
      obtain ⟨x', y', d, rfl, hx, hy⟩ := ih h
      exact ⟨'_' :: x', y', d, rfl, .turn hx, hy⟩

theorem Turned.eq_of_dot_not_mem (h : Turned b t t') (ht : '.' ∉ t) : t' = t := by
  induction h with
  | nil b => rfl
  | keep b c _ ih => rw [ih fun h => ht (List.mem_cons_of_mem _ h)]
  | turn _ _ => exact absurd List.mem_cons_self ht

/-- The number of characters other than underscores. -/
def weight (t : Text) : ℕ := t.countP (· != '_')

theorem weight_append (t u : Text) : weight (t ++ u) = weight t + weight u := List.countP_append

theorem weight_le_length (t : Text) : weight t ≤ t.length := List.countP_le_length

/-- Turning dots makes a text lighter, unless it does nothing. -/
theorem Turned.weight_lt (h : Turned b t t') : t' = t ∨ weight t' < weight t := by
  induction h with
  | nil b => exact Or.inl rfl
  | keep b c _ ih =>
    refine ih.imp (congrArg (c :: ·)) fun hlt => ?_
    rw [weight, weight, List.countP_cons, List.countP_cons]
    exact Nat.add_lt_add_right hlt _
  | @turn t t' _ ih =>
    have hle : weight t' ≤ weight t := ih.elim (fun h => (congrArg weight h).le) fun h => h.le
    have hdot : weight ('.' :: t) = weight t + 1 := List.countP_cons_of_pos (by decide)
    have hturned : weight ('_' :: t') = weight t' := List.countP_cons_of_neg (by decide)
    right
    omega

theorem Turned.weight_le (h : Turned b t t') : weight t' ≤ weight t :=
  h.weight_lt.elim (fun h => (congrArg weight h).le) fun h => h.le

/-! ## Statements that were found -/

theorem Statement.exists_text (x : Statement) : ∃ r, x.text = 'i' :: r := by
  obtain ⟨y, -, hy⟩ := x.begins []
  have himport : "import".toList = ['i', 'm', 'p', 'o', 'r', 't'] := rfl
  rw [List.append_nil, himport] at hy
  exact ⟨_, hy⟩

/-- In a statement that is found there are no braces. -/
theorem exists_statement_of_search (h : statementForm.search code = some m) :
    ∃ x : Statement, m.text = x.text ∧ m.group 2 = x.path ∧ m.group 3 = x.name ∧
      '\x7b' ∉ m.text := by
  obtain ⟨b, start, u, hhere⟩ := exists_here_of_search h
  obtain ⟨x, htext, hpath, hname, v, w, hv, hw, hending⟩ := exists_statement_ending_of_here hhere
  have hfront := not_mem_front (Or.inl rfl) x.isGap x.isQuote x.isPath x.isGap_front x.isGap_back
  have hword : '\x7b' ∉ x.name := fun hmem => absurd (x.isIdentifier.2 _ hmem) (by decide)
  have hblanks : '\x7b' ∉ v := fun hmem => absurd (hv _ hmem) (by decide)
  have hsemicolon : '\x7b' ∉ w := by
    rcases hw with hw | rfl
    · rw [accepts_lit.1 hw]
      decide
    · exact List.not_mem_nil
  refine ⟨x, htext, hpath, hname, ?_⟩
  rw [htext]
  unfold Statement.text
  rw [hending]
  intro hmem
  rcases List.mem_append.1 hmem with hmem | hmem
  · rcases List.mem_append.1 hmem with hmem | hmem
    · exact hfront hmem
    · exact hword hmem
  · rcases List.mem_append.1 hmem with hmem | hmem
    · exact hblanks hmem
    · exact hsemicolon hmem

/-! ## What is written -/

/-- No namespace import begins in the text, whatever stands behind it, and one that begins in front
of it ends before its first brace, where there are no dots. -/
structure IsShut (t : Text) : Prop where
  exists_brace : ∃ h r, t = h ++ '\x7b' :: r ∧ '.' ∉ h
  not_begins : ∀ v y, v ≠ [] → v <:+ t → ¬ Begins (v ++ y)

theorem IsShut.ne_nil (h : IsShut t) : t ≠ [] := by
  obtain ⟨u, r, rfl, -⟩ := h.exists_brace
  exact List.append_ne_nil_of_right_ne_nil _ (List.cons_ne_nil _ _)

theorem IsShut.turned (h : IsShut t) (ht : Turned b t t') : IsShut t' where
  exists_brace := by
    obtain ⟨u, r, rfl, hu⟩ := h.exists_brace
    obtain ⟨u', r', c, rfl, hu', hr'⟩ := ht.exists_append
    obtain rfl := hu'.eq_of_dot_not_mem hu
    cases hr' with
    | keep _ _ _ => exact ⟨_, _, rfl, hu⟩
  not_begins v y hv := by
    rintro ⟨p, rfl⟩ hbegins
    obtain ⟨p', v', rfl, -, hv'⟩ := ht.exists_of_append
    refine h.not_begins v' y (mt hv'.eq_nil_iff.2 hv) ⟨p', rfl⟩ ?_
    exact ((hv'.append (Turned.refl false y))).begins hbegins

theorem IsShut.turned_false (h : IsShut t) (ht : Turned b t t') : Turned false t t' := by
  obtain ⟨u, r, rfl, hu⟩ := h.exists_brace
  cases u with
  | nil =>
    cases ht with
    | keep _ _ ht => exact .keep false _ ht
  | cons c u =>
    cases ht with
    | keep _ _ ht => exact .keep false _ ht
    | turn _ => exact absurd List.mem_cons_self hu

theorem closed_nil : Closed [] := by
  rintro v hv ⟨y, -, hy⟩
  rw [List.suffix_nil.1 hv] at hy
  cases hy

/-- The import statements that are written for uses are shut. -/
theorem isShut_blocks (hname : IsIdentifier name) (hpath : ∀ c ∈ path, isBlank c = false)
    (hus : ∀ u ∈ us, IsUse name u) (hne : us ≠ []) : IsShut (blocks (importsOf path us)) where
  exists_brace := by
    obtain ⟨r, hr⟩ := blocks_eq (importsOf_ne_nil path hne)
    refine ⟨"import".toList ++ [' '], r, ?_, by decide⟩
    rw [hr, List.append_assoc]
    rfl
  not_begins v y hv hsuffix hbegins := by
    obtain ⟨r, hr⟩ := blocks_eq_concat (importsOf_ne_nil path hne)
    have hclosed := closed_blocks_importsOf hname hpath hus closed_nil
    rw [List.append_nil] at hclosed
    obtain ⟨w, rfl⟩ : ∃ w, v = w ++ [';'] := by
      obtain ⟨w, c, rfl⟩ := (List.eq_nil_or_concat v).resolve_left hv
      rw [List.concat_eq_append] at hsuffix ⊢
      obtain ⟨z, hz⟩ := hsuffix
      have hlast := congrArg List.getLast? (hz.trans hr)
      rw [← List.append_assoc, List.getLast?_concat, List.getLast?_concat] at hlast
      cases hlast
      exact ⟨w, rfl⟩
    rw [List.append_assoc] at hbegins
    exact hclosed _ hsuffix (hbegins.of_stop (Or.inr rfl) [';'])

/-! ## What was given and what was written -/

/-- A text in which some parts were written, and are shut, and the others were given; the number is
the weight of those. -/
inductive Patched : ℕ → Text → Prop
  | given (t : Text) : Patched (weight t) t
  | written (u : Text) {t v : Text} {n : ℕ} : IsShut v → Patched n t →
      Patched (weight u + n) (u ++ (v ++ t))

theorem Patched.append (h : Patched n t) (u : Text) : Patched (weight u + n) (u ++ t) := by
  cases h with
  | given t => exact weight_append u t ▸ .given (u ++ t)
  | written w hv ht =>
    rw [← List.append_assoc, ← Nat.add_assoc, ← weight_append]
    exact .written (u ++ w) hv ht

theorem Patched.insert (h : Patched n t) (hnew : new = [] ∨ IsShut new) (u : Text) :
    Patched (weight u + n) (u ++ (new ++ t)) := by
  rcases hnew with rfl | hnew
  · exact h.append u
  · exact .written u hnew h

/-- Where a statement stands that begins in a text with something shut in it: in front of it, behind
it, or in front of it with its end in the part before the first brace. -/
theorem IsShut.locate (hv : IsShut v) (hs : Begins (s ++ y)) (hbrace : '\x7b' ∉ s)
    (h : u ++ (v ++ t) = x ++ (s ++ y)) :
    (∃ z, u = x ++ (s ++ z) ∧ y = z ++ (v ++ t)) ∨
    (∃ s₁ s₂ v', s₁ ≠ [] ∧ u = x ++ s₁ ∧ s = s₁ ++ s₂ ∧ v = s₂ ++ v' ∧ '.' ∉ s₂ ∧ IsShut v' ∧
      y = v' ++ t) ∨
    ∃ z, x = u ++ (v ++ z) ∧ t = z ++ (s ++ y) := by
  rcases List.append_eq_append_iff.1 h with ⟨a, rfl, ha⟩ | ⟨a, rfl, ha⟩
  · -- the statement does not begin in front of `v`
    rcases List.append_eq_append_iff.1 ha with ⟨z, rfl, hz⟩ | ⟨z, rfl, hz⟩
    · exact Or.inr (Or.inr ⟨z, rfl, hz⟩)
    · by_cases hnil : z = []
      · subst hnil
        exact Or.inr (Or.inr ⟨[], by simp, hz.symm⟩)
      · rw [hz] at hs
        exact absurd hs (hv.not_begins z t hnil ⟨a, rfl⟩)
  · by_cases hnil : a = []
    · subst hnil
      rw [List.nil_append] at ha
      rw [ha] at hs
      exact absurd hs (hv.not_begins v t hv.ne_nil List.suffix_rfl)
    rcases List.append_eq_append_iff.1 ha with ⟨z, rfl, hz⟩ | ⟨s₂, rfl, hz⟩
    · exact Or.inl ⟨z, rfl, hz⟩
    · obtain ⟨w, r, hw, hdot⟩ := hv.exists_brace
      have hbrace₂ : '\x7b' ∉ s₂ := fun hmem => hbrace (List.mem_append_right a hmem)
      -- the end of the statement is a beginning of `v` without a brace
      obtain ⟨w', rfl⟩ : s₂ <+: w := by
        rw [hw, List.append_assoc] at hz
        rcases List.append_eq_append_iff.1 hz with ⟨z, rfl, hz'⟩ | ⟨z, rfl, -⟩
        · cases z with
          | nil => exact ⟨[], by simp⟩
          | cons d z =>
            obtain ⟨rfl, -⟩ := List.cons.inj hz'
            exact absurd (List.mem_append_right _ List.mem_cons_self) hbrace₂
        · exact ⟨z, rfl⟩
      rw [List.mem_append, not_or] at hdot
      refine Or.inr (Or.inl ⟨a, s₂, w' ++ '\x7b' :: r, hnil, rfl, rfl, ?_, hdot.1, ?_, ?_⟩)
      · rw [hw, List.append_assoc]
      · refine ⟨⟨w', r, rfl, hdot.2⟩, fun z y' hz hsuffix => hv.not_begins z y' hz ?_⟩
        rw [hw, List.append_assoc]
        exact hsuffix.trans (List.suffix_append _ _)
      · rw [hw] at hz
        simp only [List.append_assoc] at hz ⊢
        exact List.append_cancel_left hz.symm

theorem weight_pos (x : Statement) (h : x.text = s ++ t) (hne : s ≠ []) : 0 < weight s := by
  obtain ⟨r, hr⟩ := x.exists_text
  obtain ⟨c, s, rfl⟩ := List.exists_cons_of_ne_nil hne
  rw [hr] at h
  obtain ⟨rfl, -⟩ := List.cons.inj h
  exact List.countP_pos_iff.2 ⟨'i', List.mem_cons_self, by decide⟩

/-- A statement that gives way to something shut, or to nothing, takes its weight along. -/
theorem Patched.replace {x : Statement} (hbrace : '\x7b' ∉ x.text) (hnew : new = [] ∨ IsShut new)
    (h : Patched n (w ++ (x.text ++ y))) : ∃ k < n, Patched k (w ++ (new ++ y)) := by
  generalize ht : w ++ (x.text ++ y) = t at h
  induction h generalizing w with
  | given t =>
    subst ht
    have hpos := weight_pos x (List.append_nil _).symm (x.exists_text.elim fun r hr => by simp [hr])
    refine ⟨_, ?_, (Patched.given y).insert hnew w⟩
    rw [weight_append, weight_append]
    omega
  | written u hv hrest ih =>
    rcases hv.locate (x.begins y) hbrace ht.symm with
      ⟨z, rfl, rfl⟩ | ⟨s₁, s₂, v', hne, rfl, hs, -, -, hv', rfl⟩ | ⟨z, rfl, hz⟩
    · have hpos := weight_pos x (List.append_nil _).symm
        (x.exists_text.elim fun r hr => by simp [hr])
      refine ⟨_, ?_, (Patched.written z hv hrest).insert hnew w⟩
      rw [weight_append, weight_append]
      omega
    · have hpos := weight_pos x hs hne
      refine ⟨_, ?_, ((hrest.insert (Or.inr hv') []).insert hnew w)⟩
      rw [weight_append]
      simp only [weight, List.countP_nil]
      simp only [weight] at hpos
      omega
    · obtain ⟨k, hk, hpatched⟩ := ih hz.symm
      refine ⟨_, Nat.add_lt_add_left hk _, ?_⟩
      rw [List.append_assoc, List.append_assoc]
      exact .written u hv hpatched

/-- Turning dots does not add to what was given. -/
theorem Patched.turned (h : Patched n t) (ht : Turned b t t') : ∃ k ≤ n, Patched k t' := by
  induction h generalizing b t' with
  | given t => exact ⟨_, ht.weight_le, .given t'⟩
  | written u hv _ ih =>
    obtain ⟨u', r, c, rfl, hu, hr⟩ := ht.exists_append
    obtain ⟨v', r', d, rfl, hv', hr'⟩ := hr.exists_append
    obtain ⟨k, hk, hpatched⟩ := ih hr'
    exact ⟨_, Nat.add_le_add hu.weight_le hk, .written u' (hv.turned hv') hpatched⟩

/-- If dots are turned in a statement, then some of them were given. -/
theorem Patched.turned_lt {x : Statement} {c d : Bool} (hbrace : '\x7b' ∉ x.text)
    (hw : Turned b w w') (hs : Turned c x.text s') (hy : Turned d y y') (hne : s' ≠ x.text)
    (h : Patched n (w ++ (x.text ++ y))) : ∃ k < n, Patched k (w' ++ (s' ++ y')) := by
  generalize ht : w ++ (x.text ++ y) = t at h
  induction h generalizing b d w w' y y' with
  | given t =>
    subst ht
    have hless := hs.weight_lt.resolve_left hne
    have hfront := hw.weight_le
    have hback := hy.weight_le
    refine ⟨_, ?_, .given _⟩
    simp only [weight_append]
    omega
  | written u hv hrest ih =>
    rcases hv.locate (x.begins y) hbrace ht.symm with
      ⟨z, rfl, rfl⟩ | ⟨s₁, s₂, v, -, rfl, hcut, rfl, hdot, hshut, rfl⟩ | ⟨z, rfl, hz⟩
    · obtain ⟨z', r, _, rfl, hz, hr⟩ := hy.exists_append
      obtain ⟨v', t', _, rfl, hv', ht'⟩ := hr.exists_append
      obtain ⟨k, hk, hpatched⟩ := hrest.turned ht'
      have hless := hs.weight_lt.resolve_left hne
      have hfront := hw.weight_le
      have hback := hz.weight_le
      refine ⟨weight (w' ++ (s' ++ z')) + k, ?_, ?_⟩
      · simp only [weight_append]
        omega
      · have hwritten := Patched.written (w' ++ (s' ++ z')) (hv.turned hv') hpatched
        simpa only [List.append_assoc] using hwritten
    · -- there are no dots in the end of the statement, so the change is in front of `v`
      rw [hcut] at hs hne
      obtain ⟨s₁', s₂', _, rfl, hs₁, hs₂⟩ := hs.exists_append
      obtain rfl := hs₂.eq_of_dot_not_mem hdot
      obtain ⟨v', t', _, rfl, hv', ht'⟩ := hy.exists_append
      obtain ⟨k, hk, hpatched⟩ := hrest.turned ht'
      have hless := hs₁.weight_lt.resolve_left fun h => hne (h ▸ rfl)
      have hfront := hw.weight_le
      refine ⟨weight (w' ++ s₁') + k, ?_, ?_⟩
      · simp only [weight_append]
        omega
      · have hwhole := hv.turned ((Turned.refl false _).append (hshut.turned_false hv'))
        have hwritten := Patched.written (w' ++ s₁') hwhole hpatched
        simpa only [List.append_assoc] using hwritten
    · obtain ⟨u', r, _, rfl, hu, hr⟩ := hw.exists_append
      obtain ⟨v', z', _, rfl, hv', hz'⟩ := hr.exists_append
      obtain ⟨k, hk, hpatched⟩ := ih hz' hy hz.symm
      refine ⟨weight u' + k, Nat.add_lt_add_of_le_of_lt hu.weight_le hk, ?_⟩
      have hwritten := Patched.written u' (hv.turned hv') hpatched
      simpa only [List.append_assoc] using hwritten

/-- A round takes away from what was given. -/
theorem Patched.expandOne (h : Patched n code) (hm : statementForm.search code = some m) :
    ∃ k < n, Patched k (expandOne m code).1 := by
  obtain ⟨u, v, _, rfl, -, -, -, -, -⟩ := exists_of_search hm
  obtain ⟨x, htext, hpath, hname, hbrace⟩ := exists_statement_of_search hm
  rw [htext] at hbrace
  have hidentifier : IsIdentifier (m.group 3) := hname ▸ x.isIdentifier
  have hblank : ∀ c ∈ m.group 2, isBlank c = false := hpath ▸ x.isBlank_path
  have hne : m.text ≠ [] := by
    obtain ⟨r, hr⟩ := x.exists_text
    rw [htext, hr]
    exact List.cons_ne_nil _ _
  rw [Namespaces.expandOne, join_blocks_eq]
  generalize hused : usages (m.group 3) (u ++ (m.text ++ v)) = us
  have hus : ∀ use ∈ us, IsUse (m.group 3) use := hused ▸ isUse_of_mem_usages hidentifier
  have hturned := turned_applyAliases hidentifier hus (u ++ (m.text ++ v))
  have hnew : blocks (importsOf (m.group 2) us) = [] ∨
      IsShut (blocks (importsOf (m.group 2) us)) := by
    by_cases hnil : us = []
    · subst hnil
      exact Or.inl rfl
    · exact Or.inr (isShut_blocks hidentifier hblank hus hnil)
  rcases replaceFirst_cases hne (blocks (importsOf (m.group 2) us))
    (applyAliases us (u ++ (m.text ++ v))) with ⟨y, z, hfound, hreplaced⟩ | ⟨hlost, hsame⟩
  · -- the statement is found again, here or further on
    obtain ⟨k, hk, hpatched⟩ := h.turned hturned
    rw [hfound, htext] at hpatched
    obtain ⟨j, hj, hpatched⟩ := hpatched.replace hbrace hnew
    rw [hreplaced]
    exact ⟨j, hj.trans_le hk, hpatched⟩
  · -- it is not, so there was a use in it
    rw [hsame]
    obtain ⟨u', r, _, he, hu, hr⟩ := hturned.exists_append
    obtain ⟨s', v', _, rfl, hs, hv⟩ := hr.exists_append
    rw [he]
    rw [htext] at h hs
    exact h.turned_lt hbrace hu hs hv fun hs' => hlost u' v' (by rw [he, hs', htext])

/-! ## All rounds -/

/-- So many rounds lead from the one text to the other. -/
inductive Rounds : ℕ → Text → Text → Prop
  | done (code : Text) : Rounds 0 code code
  | round {code code' : Text} {m : Match} {n : ℕ} : statementForm.search code = some m →
      Rounds n (expandOne m code).1 code' → Rounds (n + 1) code code'

theorem Rounds.le_of_patched (h : Rounds k code code') (hp : Patched n code) : k ≤ n := by
  induction h generalizing n with
  | done code => exact Nat.zero_le n
  | round hm _ ih =>
    obtain ⟨j, hj, hpatched⟩ := hp.expandOne hm
    exact (Nat.succ_le_succ (ih hpatched)).trans hj

theorem Patched.expandFrom {fuel : ℕ} (h : Patched n code) (hn : n ≤ fuel) :
    Rounds (expandFrom fuel code).2.length code (expandFrom fuel code).1 ∧
      statementForm.search (expandFrom fuel code).1 = none := by
  induction fuel generalizing n code with
  | zero =>
    refine ⟨.done code, Option.eq_none_iff_forall_ne_some.2 fun m hm => ?_⟩
    obtain ⟨k, hk, -⟩ := h.expandOne hm
    exact absurd (hk.trans_le hn) (Nat.not_lt_zero k)
  | succ fuel ih =>
    rw [Namespaces.expandFrom]
    cases hm : statementForm.search code with
    | none => exact ⟨.done code, hm⟩
    | some m =>
      obtain ⟨k, hk, hpatched⟩ := h.expandOne hm
      obtain ⟨hrounds, hnone⟩ := ih hpatched (Nat.le_of_lt_succ (hk.trans_le hn))
      exact ⟨.round hm hrounds, hnone⟩

/-- There are no more rounds than characters, from whatever text; the expanded text is the one after
the last of them, and each gives one notice. -/
theorem expand_ends (code : Text) : (∀ n code', Rounds n code code' → n ≤ code.length) ∧
    Rounds (expand code).2.length code (expand code).1 ∧
      statementForm.search (expand code).1 = none :=
  ⟨fun _ _ h => (h.le_of_patched (.given code)).trans (weight_le_length code),
    (Patched.given code).expandFrom ((weight_le_length code).trans (Nat.le_succ _))⟩

/-- The import that is found is changed itself, so it is a later one that becomes what it was and
gives way in its place. -/
example : (statementForm.search "import n.n_b as n; n.b import n.n.b as n;".toList).map (fun m =>
    (expandOne m "import n.n_b as n; n.b import n.n.b as n;".toList).1) =
    some ("import n_n_b as n; n_b ".toList ++
      "import \x7b\n  n_b as n_n_b,\n  b as n_b\n\x7d from \"n.n_b\";\n".toList ++
      "import \x7b\n  b as n_n_b\n\x7d from \"n.n_b/n\";".toList) := by
  decide +kernel

end Namespaces

end ShaderLink
