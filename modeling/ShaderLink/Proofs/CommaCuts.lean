import ShaderLink.Proofs.Commas

/-!
# Where a text is cut at its commas

The pieces of a text are told apart from all other ways of cutting it by the commas between them:
these are the ones at depth zero (`CutsAt`, `cutsAt_iff`).  So what splitting returns can be said
without the way it is computed, and splitting and joining undo each other: `splitCommas_outcome`.
-/

namespace ShaderLink.Text

variable {c : Char} {d : Int} {p q t u : Text} {ps : List Text}

/-! ## Depths -/

/-- The depth behind a text is the number of brackets opened less the number of those closed. -/
theorem balance_eq_count (t : Text) :
    balance t = t.count '(' + t.count '{' - t.count ')' - t.count '}' := by
  induction t with
  | nil => rfl
  | cons c t ih =>
    rw [balance, ih]
    by_cases hc : c ∈ ['(', '{', ')', '}']
    · simp only [List.mem_cons, List.not_mem_nil, or_false] at hc
      rcases hc with rfl | rfl | rfl | rfl <;> simp [nesting] <;> omega
    · simp only [List.mem_cons, List.not_mem_nil, or_false, not_or] at hc
      obtain ⟨hround, hcurly, hround', hcurly'⟩ := hc
      simp [nesting, hround, hcurly, hround', hcurly', List.count_cons_of_ne]

theorem balance_comma (u : Text) : balance (',' :: u) = balance u := Int.zero_add _

/-! ## Commas between pieces -/

/-- A comma between two of the pieces follows the text, when the pieces are joined. -/
def Separates (ps : List Text) (u : Text) : Prop :=
  ∃ qs rs, qs ≠ [] ∧ rs ≠ [] ∧ ps = qs ++ rs ∧ join [','] qs = u

theorem separates_cons : Separates (p :: ps) u ↔
    ps ≠ [] ∧ (u = p ∨ ∃ v, u = p ++ ',' :: v ∧ Separates ps v) := by
  constructor
  · rintro ⟨qs, rs, hqs, hrs, hcut, rfl⟩
    obtain ⟨q, qs, rfl⟩ := List.exists_cons_of_ne_nil hqs
    obtain ⟨rfl, rfl⟩ := List.cons.inj hcut
    refine ⟨List.append_ne_nil_of_right_ne_nil qs hrs, ?_⟩
    rw [join_cons]
    split
    · exact Or.inl (List.append_nil p)
    · rename_i hqs
      exact Or.inr ⟨_, rfl, qs, rs, hqs, hrs, rfl, rfl⟩
  · rintro ⟨hps, rfl | ⟨v, rfl, qs, rs, hqs, hrs, rfl, rfl⟩⟩
    · exact ⟨[u], ps, List.cons_ne_nil u [], hps, rfl, List.append_nil u⟩
    · refine ⟨p :: qs, rs, List.cons_ne_nil p qs, hrs, rfl, ?_⟩
      rw [join_cons, if_neg hqs]
      rfl

theorem separates_nil_nil (h : ps ≠ []) : Separates ([] :: ps) [] :=
  separates_cons.2 ⟨h, Or.inl rfl⟩

theorem separates_nil_comma : Separates ([] :: ps) (',' :: u) ↔ Separates ps u := by
  rw [separates_cons]
  constructor
  · rintro ⟨-, h | ⟨v, hv, h⟩⟩
    · cases h
    · exact (List.cons.inj hv).2 ▸ h
  · intro h
    obtain ⟨qs, rs, -, hrs, rfl, -⟩ := id h
    exact ⟨List.append_ne_nil_of_right_ne_nil qs hrs, Or.inr ⟨u, rfl, h⟩⟩

theorem not_separates_cons_nil : ¬ Separates ((c :: p) :: ps) [] := by
  rw [separates_cons]
  rintro ⟨-, h | ⟨v, h, -⟩⟩ <;> cases h

theorem separates_cons_cons :
    Separates ((c :: p) :: ps) (c :: u) ↔ Separates (p :: ps) u := by
  simp [separates_cons]

/-! ## Cuts -/

/-- The pieces of a text that begins at a given depth: joined by commas they are the text, and the
commas between them are those at depth zero. -/
structure CutsAt (d : Int) (t : Text) (ps : List Text) : Prop where
  ne_nil : ps ≠ []
  join_eq : join [','] ps = t
  separates_iff : ∀ u w, t = u ++ ',' :: w → (Separates ps u ↔ d + balance u = 0)

theorem cutsAt_nil : CutsAt d [] ps ↔ ps = [[]] := by
  constructor
  · intro h
    obtain ⟨p, qs, rfl⟩ := List.exists_cons_of_ne_nil h.ne_nil
    have hjoin := h.join_eq
    rw [join_cons, List.append_eq_nil_iff] at hjoin
    obtain ⟨rfl, hrest⟩ := hjoin
    split at hrest
    · rename_i hqs
      rw [hqs]
    · cases hrest
  · rintro rfl
    exact ⟨List.cons_ne_nil _ _, rfl, fun u w h => absurd h (by simp)⟩

/-- A comma at depth zero ends a piece. -/
theorem cutsAt_comma : CutsAt 0 (',' :: t) ps ↔ ∃ qs, ps = [] :: qs ∧ CutsAt 0 t qs := by
  constructor
  · intro h
    obtain ⟨p, qs, rfl⟩ := List.exists_cons_of_ne_nil h.ne_nil
    have hsep : Separates (p :: qs) [] := (h.separates_iff [] t rfl).2 rfl
    cases p with
    | cons c p => exact absurd hsep not_separates_cons_nil
    | nil =>
      have hqs : qs ≠ [] := (separates_cons.1 hsep).1
      have hjoin := h.join_eq
      rw [join_cons, if_neg hqs] at hjoin
      refine ⟨qs, rfl, hqs, (List.cons.inj hjoin).2, fun u w hu => ?_⟩
      have hcut := h.separates_iff (',' :: u) w (congrArg (',' :: ·) hu)
      rwa [separates_nil_comma, balance_comma] at hcut
  · rintro ⟨qs, rfl, h⟩
    refine ⟨List.cons_ne_nil _ _, ?_, fun u w hu => ?_⟩
    · rw [join_cons, if_neg h.ne_nil, h.join_eq]
      rfl
    · cases u with
      | nil => exact iff_of_true (separates_nil_nil h.ne_nil) rfl
      | cons c u =>
        obtain ⟨rfl, htail⟩ := List.cons.inj hu
        rw [separates_nil_comma, balance_comma]
        exact h.separates_iff u w htail

/-- Any other character belongs to the first piece. -/
theorem cutsAt_cons (hc : ¬ (c = ',' ∧ d = 0)) : CutsAt d (c :: t) ps ↔
    ∃ q qs, ps = (c :: q) :: qs ∧ CutsAt (d + nesting c) t (q :: qs) := by
  constructor
  · intro h
    obtain ⟨p, qs, rfl⟩ := List.exists_cons_of_ne_nil h.ne_nil
    have hjoin := h.join_eq
    cases p with
    | nil =>
      -- then the text begins with a comma between two pieces
      by_cases hqs : qs = []
      · rw [hqs] at hjoin
        cases hjoin
      · rw [join_cons, if_neg hqs] at hjoin
        obtain rfl : ',' = c := (List.cons.inj hjoin).1
        have hzero := (h.separates_iff [] t rfl).1 (separates_nil_nil hqs)
        rw [balance, Int.add_zero] at hzero
        exact absurd ⟨rfl, hzero⟩ hc
    | cons c' q =>
      rw [join_cons, List.cons_append, ← join_cons] at hjoin
      obtain ⟨rfl, htail⟩ := List.cons.inj hjoin
      refine ⟨q, qs, rfl, List.cons_ne_nil q qs, htail, fun u w hu => ?_⟩
      have hcut := h.separates_iff (c' :: u) w (congrArg (c' :: ·) hu)
      rwa [separates_cons_cons, balance, ← Int.add_assoc] at hcut
  · rintro ⟨q, qs, rfl, h⟩
    refine ⟨List.cons_ne_nil _ _, ?_, fun u w hu => ?_⟩
    · rw [join_cons, List.cons_append, ← join_cons, h.join_eq]
    · cases u with
      | nil =>
        obtain ⟨rfl, -⟩ := List.cons.inj hu
        refine iff_of_false not_separates_cons_nil fun hzero => hc ⟨rfl, ?_⟩
        rwa [balance, Int.add_zero] at hzero
      | cons c' u =>
        obtain ⟨rfl, htail⟩ := List.cons.inj hu
        rw [separates_cons_cons, balance, ← Int.add_assoc]
        exact h.separates_iff u w htail

theorem pieces_comma (t : Text) : pieces 0 (',' :: t) = [] :: pieces 0 t := rfl

theorem pieces_cons (hc : ¬ (c = ',' ∧ d = 0)) (h : pieces (d + nesting c) t = q :: ps) :
    pieces d (c :: t) = (c :: q) :: ps := by
  obtain ⟨rfl, rfl⟩ := List.cons.inj h
  rw [pieces, commaPieces, if_neg hc]

/-- There is one way of cutting a text. -/
theorem cutsAt_iff : CutsAt d t ps ↔ ps = pieces d t := by
  induction t generalizing d ps with
  | nil => exact cutsAt_nil
  | cons c t ih =>
    by_cases hc : c = ',' ∧ d = 0
    · obtain ⟨rfl, rfl⟩ := hc
      rw [cutsAt_comma, pieces_comma]
      simp only [ih]
      exact ⟨fun ⟨qs, hps, hqs⟩ => hqs ▸ hps, fun hps => ⟨_, hps, rfl⟩⟩
    · rw [cutsAt_cons hc]
      simp only [ih]
      constructor
      · rintro ⟨q, qs, rfl, hqs⟩
        exact (pieces_cons hc hqs.symm).symm
      · rintro rfl
        exact ⟨_, _, pieces_cons hc rfl, rfl⟩

/-! ## Splitting -/

theorem dropEmptyLast_eq_ite (p : Text) (ps : List Text) : dropEmptyLast p ps =
    if (p :: ps).getLast? = some [] then (p :: ps).dropLast else p :: ps := by
  induction ps generalizing p with
  | nil => cases p <;> rfl
  | cons q qs ih =>
    rw [dropEmptyLast, ih, List.getLast?_cons_cons]
    split <;> rfl

theorem splitCommas_eq_ok_iff {parts : List Text} (h : CutsAt 0 t ps) :
    splitCommas t = .ok parts ↔ balance t = 0 ∧
      parts = (if ps.getLast? = some [] then ps.dropLast else ps).map trim := by
  obtain rfl := cutsAt_iff.1 h
  unfold splitCommas
  split
  · rename_i hzero
    simp only [dropEmptyLast_eq_ite]
    exact ⟨fun h => ⟨hzero, (Except.ok.inj h).symm⟩, fun h => congrArg Except.ok h.2.symm⟩
  · rename_i hne
    exact iff_of_false nofun fun h => hne h.1

theorem splitCommas_join {ts : List Text} (hne : ∀ u ∈ ts, u ≠ []) (htrim : ∀ u ∈ ts, u.trim = u)
    (h : ∀ u ∈ ts, IsPiece u) : splitCommas (join [','] ts) = .ok ts := by
  cases ts with
  | nil => rfl
  | cons t ts =>
    have hcut := cutsAt_iff.2 (pieces_join (List.cons_ne_nil t ts) h).symm
    refine (splitCommas_eq_ok_iff hcut).2 ⟨balance_join h, ?_⟩
    have hlast : (t :: ts).getLast? ≠ some [] := fun hlast =>
      hne [] (List.mem_of_getLast? hlast) rfl
    have hmap : (t :: ts).map trim = (t :: ts).map id := List.map_congr_left htrim
    rw [if_neg hlast, hmap, List.map_id]

theorem splitCommas_error_iff : (∃ f, splitCommas t = .error f ∧
    f.cause.family = some .unbalancedBrackets) ↔ balance t ≠ 0 := by
  unfold splitCommas
  split
  · rename_i hzero
    exact iff_of_false (fun ⟨_, h, _⟩ => nomatch h) (not_not_intro hzero)
  · rename_i hne
    exact iff_of_true ⟨_, rfl, rfl⟩ hne

/-- A text all of whose brackets are closed, by number, is cut at its commas at depth zero; the
pieces are trimmed, and only an empty last one is left out.  Any other text is a fault.  What is
joined by commas is split into the same parts again, if each of them closes its brackets, has its
own commas inside of them, and is neither empty nor begins or ends with blanks. -/
theorem splitCommas_outcome (t : Text) :
    (∀ u : Text, balance u = u.count '(' + u.count '{' - u.count ')' - u.count '}') ∧
    (∃ ps, CutsAt 0 t ps ∧ ∀ parts, splitCommas t = .ok parts ↔ balance t = 0 ∧
      parts = (if ps.getLast? = some [] then ps.dropLast else ps).map trim) ∧
    ((∃ f, splitCommas t = .error f ∧ f.cause.family = some .unbalancedBrackets) ↔
      balance t ≠ 0) ∧
    ∀ ts : List Text, (∀ u ∈ ts, u ≠ [] ∧ u.trim = u ∧ IsPiece u) →
      splitCommas (join [','] ts) = .ok ts := by
  have hcut : CutsAt 0 t (pieces 0 t) := cutsAt_iff.2 rfl
  exact ⟨balance_eq_count, ⟨_, hcut, fun _ => splitCommas_eq_ok_iff hcut⟩, splitCommas_error_iff,
    fun _ h => splitCommas_join (fun u hu => (h u hu).1) (fun u hu => (h u hu).2.1) fun u hu =>
      (h u hu).2.2⟩

/-- Parts with commas inside of their brackets, one of which closes brackets before it opens them. -/
def sampleParts : List Text := ["a".toList, "f(b,\x7bc\x7d)".toList, ")d,e(".toList]

theorem splitCommas_outcome_nested :
    (∃ ps, CutsAt 0 (join [','] sampleParts ++ ", ,".toList) ps ∧
      sampleParts ++ [[]] = (if ps.getLast? = some [] then ps.dropLast else ps).map trim) ∧
    balance "f(b,c\x7d(".toList ≠ 0 ∧
    (∀ u ∈ sampleParts, u ≠ [] ∧ u.trim = u ∧ IsPiece u) ∧
    splitCommas (join [','] sampleParts) = .ok sampleParts := by
  have hparts : ∀ u ∈ sampleParts, u ≠ [] ∧ u.trim = u ∧ IsPiece u := by decide
  obtain ⟨ps, hcut, hreturns⟩ := (splitCommas_outcome (join [','] sampleParts ++ ", ,".toList)).2.1
  exact ⟨⟨ps, hcut, ((hreturns _).1 (by rfl)).2⟩, (splitCommas_outcome _).2.2.1.1 ⟨_, rfl, rfl⟩,
    hparts, (splitCommas_outcome []).2.2.2 sampleParts hparts⟩

end ShaderLink.Text
