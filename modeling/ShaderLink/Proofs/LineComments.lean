import ShaderLink.Proofs.Scans

/-!
# Taking out line comments

What taking out line comments does to closing marks.  It never makes one
(`toClose_scan_line`), and it leaves the first one where it is if no two slashes stand on its line
(`toClose_scan_line_append`); otherwise that one is lost (`toClose_scan_line_eq_none`).
-/

namespace ShaderLink.Comment

/-- Two slashes stand on the last line of the text. -/
def slashesLast : Text → Bool
  | [] => false
  | c :: t => (decide (['/', '/'] <+: c :: t) && decide ('\n' ∉ t)) || slashesLast t

variable {c : Char} {t u v r y : Text} {n : Nat}

/-! ## Closing marks -/

theorem toClose_append (h : toClose y = some n) (r : Text) : toClose (y ++ r) = some n := by
  induction y generalizing n with
  | nil => cases h
  | cons c y ih =>
    by_cases hp : ['*', '/'] <+: c :: y
    · rw [toClose_closing hp] at h
      exact h ▸ toClose_closing (hp.trans (List.prefix_append _ r))
    · obtain ⟨m, hm, rfl⟩ := Option.map_eq_some_iff.1 (toClose_cons hp ▸ h)
      have hlen : 0 < y.length := Nat.lt_of_lt_of_le Nat.zero_lt_two
        ((toClose_bounds hm).1.trans (toClose_bounds hm).2)
      obtain ⟨d, y, rfl⟩ := List.exists_cons_of_length_pos hlen
      have hp' : ¬ ['*', '/'] <+: c :: (d :: y ++ r) := by
        simpa [List.cons_prefix_cons] using hp
      exact (toClose_cons_eq_some hp').2 (ih hm)

theorem toClose_take (h : toClose t = some n) : toClose (t.take n) = some n := by
  induction t generalizing n with
  | nil => cases h
  | cons c t ih =>
    by_cases hp : ['*', '/'] <+: c :: t
    · obtain ⟨r, hr⟩ := hp
      rw [toClose_closing ⟨r, hr⟩] at h
      cases h
      rw [← hr]
      rfl
    · obtain ⟨m, hm, rfl⟩ := Option.map_eq_some_iff.1 (toClose_cons hp ▸ h)
      have hp' : ¬ ['*', '/'] <+: c :: t.take m := fun hp' =>
        hp (hp'.trans ((List.prefix_cons_inj c).2 (List.take_prefix m t)))
      exact (toClose_cons_eq_some hp').2 (ih hm)

/-- No closing mark comes into a text by taking something off its front. -/
theorem toClose_suffix (h : toClose t = none) (hs : u <:+ t) : toClose u = none := by
  induction t with
  | nil => rwa [List.suffix_nil.1 hs]
  | cons c t ih =>
    rcases List.suffix_cons_iff.1 hs with rfl | hs
    · exact h
    · by_cases hp : ['*', '/'] <+: c :: t
      · rw [toClose_closing hp] at h
        cases h
      · rw [toClose_cons hp, Option.map_eq_none_iff] at h
        exact ih h hs

/-- The first closing mark is no later than the first one of an ending. -/
theorem toClose_le_add {m : Nat} (h : toClose (v ++ u) = some n) (hu : toClose u = some m) :
    n ≤ v.length + m := by
  induction v generalizing n with
  | nil =>
    rw [List.nil_append, hu] at h
    cases h
    exact Nat.le_add_left _ _
  | cons c v ih =>
    rw [List.length_cons]
    by_cases hp : ['*', '/'] <+: c :: (v ++ u)
    · rw [List.cons_append, toClose_closing hp] at h
      cases h
      have := (toClose_bounds hu).1
      omega
    · obtain ⟨k, hk, rfl⟩ := Option.map_eq_some_iff.1 (toClose_cons hp ▸ h)
      have := ih hk
      omega

/-! ## Line ends -/

theorem dropLine_suffix (t : Text) : dropLine t <:+ t := List.dropWhile_suffix _

theorem takeWhile_append_dropLine (t : Text) : t.takeWhile (· != '\n') ++ dropLine t = t :=
  List.takeWhile_append_dropWhile

theorem dropLine_cons (hc : c ≠ '\n') (t : Text) : dropLine (c :: t) = dropLine t := by
  unfold dropLine
  rw [List.dropWhile_cons_of_pos (by simpa using hc)]

/-- The rest behind a line begins with the line end, if there is one. -/
theorem dropLine_eq (t : Text) :
    '\n' ∉ t ∧ dropLine t = [] ∨ '\n' ∈ t ∧ ∃ r, dropLine t = '\n' :: r := by
  induction t with
  | nil => exact Or.inl ⟨List.not_mem_nil, rfl⟩
  | cons c t ih =>
    by_cases hc : c = '\n'
    · subst hc
      exact Or.inr ⟨List.mem_cons_self, t, rfl⟩
    · rw [dropLine_cons hc, List.mem_cons, or_iff_right (Ne.symm hc)]
      exact ih

theorem dropLine_append (h : '\n' ∈ t) (r : Text) : dropLine (t ++ r) = dropLine t ++ r := by
  induction t with
  | nil => cases h
  | cons c t ih =>
    by_cases hc : c = '\n'
    · subst hc
      rfl
    · have hmem : '\n' ∈ t := (List.mem_cons.1 h).resolve_left (Ne.symm hc)
      rw [List.cons_append, dropLine_cons hc, dropLine_cons hc, ih hmem]

theorem dropLine_takeWhile_append (h : u = [] ∨ ∃ v, u = '\n' :: v) (t : Text) :
    dropLine (t.takeWhile (· != '\n') ++ u) = u := by
  have hline : ∀ c ∈ t.takeWhile (· != '\n'), (c != '\n') = true :=
    fun c hc => (List.mem_takeWhile_imp hc :)
  rw [dropLine, List.dropWhile_append_of_pos hline]
  rcases h with rfl | ⟨v, rfl⟩ <;> rfl

/-- A text that ends with its first closing mark still does so when it is cut at a line end. -/
theorem toClose_dropLine (h : toClose y = some y.length) (hn : '\n' ∈ y) :
    toClose (dropLine y) = some (dropLine y).length := by
  induction y with
  | nil => cases hn
  | cons c y ih =>
    by_cases hc : c = '\n'
    · subst hc
      exact h
    · have hmem : '\n' ∈ y := (List.mem_cons.1 hn).resolve_left (Ne.symm hc)
      have hp : ¬ ['*', '/'] <+: c :: y := by
        intro hp
        rw [toClose_closing hp] at h
        have hlen : (['*', '/'] : Text).length = (c :: y).length := Option.some.inj h
        rw [← hp.eq_of_length hlen] at hn
        simp at hn
      rw [dropLine_cons hc]
      exact ih ((toClose_cons_eq_some hp).1 h) hmem

theorem slashesLast_cons : slashesLast (c :: t) = false ↔
    (['/', '/'] <+: c :: t → '\n' ∈ t) ∧ slashesLast t = false := by
  simp [slashesLast]

theorem slashesLast_suffix (h : slashesLast t = false) (hs : u <:+ t) : slashesLast u = false := by
  induction t with
  | nil => rwa [List.suffix_nil.1 hs]
  | cons c t ih =>
    rcases List.suffix_cons_iff.1 hs with rfl | hs
    · exact h
    · exact ih (slashesLast_cons.1 h).2 hs

theorem slashesLast_dropLine (h : slashesLast t = true) (hn : '\n' ∈ t) :
    slashesLast (dropLine t) = true := by
  induction t with
  | nil => cases hn
  | cons c t ih =>
    by_cases hc : c = '\n'
    · subst hc
      exact h
    · have hmem : '\n' ∈ t := (List.mem_cons.1 hn).resolve_left (Ne.symm hc)
      rw [dropLine_cons hc]
      refine ih ?_ hmem
      simpa [slashesLast, hmem] using h

/-! ## Taking out line comments -/

theorem lineLength_eq_zero_iff : lineLength t = 0 ↔ ¬ ['/', '/'] <+: t := by
  constructor
  · rintro h ⟨r, rfl⟩
    cases h
  · intro h
    exact if_neg h

theorem scan_line (h : ['/', '/'] <+: t) :
    scan lineLength 0 t = scan lineLength 0 (dropLine t) := by
  have hne : lineLength t ≠ 0 := fun hzero => lineLength_eq_zero_iff.1 hzero h
  have hdrop : t.drop (lineLength t) = dropLine t := by
    rw [lineLength, if_pos h]
    exact (congrArg (List.drop _) (takeWhile_append_dropLine t).symm).trans List.drop_left
  rw [scan_of_ne_zero hne, hdrop]

theorem scan_line_cons (h : ¬ ['/', '/'] <+: c :: t) :
    scan lineLength 0 (c :: t) = c :: scan lineLength 0 t :=
  scan_cons (lineLength_eq_zero_iff.2 h)

theorem length_dropLine_lt (h : ['/', '/'] <+: t) : (dropLine t).length < t.length := by
  obtain ⟨r, rfl⟩ := h
  have hle : (dropLine r).length ≤ r.length := (dropLine_suffix r).length_le
  show (dropLine r).length < r.length + 2
  omega

/-- A text is empty, begins with a line comment, or with a character outside of line comments. -/
theorem line_induction {motive : Text → Prop} (nil : motive [])
    (comment : ∀ t, ['/', '/'] <+: t → motive (dropLine t) → motive t)
    (other : ∀ c t, ¬ ['/', '/'] <+: c :: t → motive t → motive (c :: t)) (t : Text) :
    motive t := by
  induction hn : t.length using Nat.strongRecOn generalizing t with
  | ind n ih =>
    subst hn
    by_cases h : ['/', '/'] <+: t
    · exact comment t h (ih _ (length_dropLine_lt h) _ rfl)
    · cases t with
      | nil => exact nil
      | cons c t => exact other c t h (ih _ (Nat.lt_succ_self _) t rfl)

/-- A character that is no line end comes first only where it did. -/
theorem prefix_of_prefix_scan_line {d : Char} (hd : d ≠ '\n')
    (h : [d] <+: scan lineLength 0 t) : [d] <+: t := by
  induction t using line_induction with
  | nil => exact h
  | comment t ht ih =>
    rw [scan_line ht] at h
    have h' := ih h
    rcases dropLine_eq t with ⟨-, hnil⟩ | ⟨-, r, hr⟩
    · rw [hnil] at h'
      simp at h'
    · rw [hr, List.cons_prefix_cons] at h'
      exact absurd h'.1 hd
  | other c t ht ih =>
    rw [scan_line_cons ht, List.cons_prefix_cons] at h
    exact List.cons_prefix_cons.2 ⟨h.1, List.nil_prefix⟩

theorem prefix_cons_scan_line {d e : Char} (he : e ≠ '\n')
    (h : [d, e] <+: c :: scan lineLength 0 t) : [d, e] <+: c :: t := by
  rw [List.cons_prefix_cons] at h ⊢
  exact ⟨h.1, prefix_of_prefix_scan_line he h.2⟩

theorem toClose_scan_line (h : toClose t = none) : toClose (scan lineLength 0 t) = none := by
  induction t using line_induction with
  | nil => exact h
  | comment t ht ih =>
    rw [scan_line ht]
    exact ih (toClose_suffix h (dropLine_suffix t))
  | other c t ht ih =>
    rw [scan_line_cons ht]
    by_cases hp : ['*', '/'] <+: c :: t
    · rw [toClose_closing hp] at h
      cases h
    · have hp' : ¬ ['*', '/'] <+: c :: scan lineLength 0 t :=
        mt (prefix_cons_scan_line (by decide)) hp
      rw [toClose_cons hp, Option.map_eq_none_iff] at h
      rw [toClose_cons hp', ih h]
      rfl

/-- The closing mark stays what it is if no two slashes stand on its line. -/
theorem toClose_scan_line_append (h : toClose y = some y.length) (hs : slashesLast y = false)
    (z : Text) :
    toClose (scan lineLength 0 y ++ z) = some (scan lineLength 0 y).length := by
  induction y using line_induction with
  | nil => cases h
  | comment y hy ih =>
    have hn : '\n' ∈ y := by
      obtain ⟨r, rfl⟩ := hy
      have hr := (slashesLast_cons.1 hs).1 (List.prefix_append _ r)
      exact List.mem_cons_of_mem _ hr
    rw [scan_line hy]
    exact ih (toClose_dropLine h hn) (slashesLast_suffix hs (dropLine_suffix y))
  | other c y hy ih =>
    by_cases hp : ['*', '/'] <+: c :: y
    · rw [toClose_closing hp] at h
      rw [← hp.eq_of_length (Option.some.inj h)]
      rfl
    · have hy' := ih ((toClose_cons_eq_some hp).1 h) (slashesLast_cons.1 hs).2
      have hp' : ¬ ['*', '/'] <+: c :: (scan lineLength 0 y ++ z) := by
        intro hp'
        -- the slash would be the first character of what is left of `y`, and so of `y`
        have hpos : 0 < (scan lineLength 0 y).length :=
          Nat.lt_of_lt_of_le Nat.zero_lt_two (toClose_bounds hy').1
        obtain ⟨d, w, hw⟩ := List.exists_cons_of_length_pos hpos
        rw [hw, List.cons_append, List.cons_prefix_cons, List.cons_prefix_cons] at hp'
        have hslash : ['/'] <+: scan lineLength 0 y :=
          hw ▸ List.cons_prefix_cons.2 ⟨hp'.2.1, List.nil_prefix⟩
        exact hp (List.cons_prefix_cons.2
          ⟨hp'.1, prefix_of_prefix_scan_line (by decide) hslash⟩)
      rw [scan_line_cons hy]
      exact (toClose_cons_eq_some hp').2 hy'

/-- Two slashes on the line of the closing mark, or partly in it, take it away. -/
theorem toClose_scan_line_eq_none (h : toClose y = some n) (hn : y.length ≤ n + 1)
    (hs : slashesLast y = true) : toClose (scan lineLength 0 y) = none := by
  induction y using line_induction generalizing n with
  | nil => cases h
  | comment y hy ih =>
    rw [scan_line hy]
    rcases dropLine_eq y with ⟨-, hnil⟩ | ⟨hmem, -⟩
    · rw [hnil]
      rfl
    · cases h' : toClose (dropLine y) with
      | none => exact toClose_scan_line h'
      | some m =>
        refine ih h' ?_ (slashesLast_dropLine hs hmem)
        have hcut := takeWhile_append_dropLine y
        have hle := toClose_le_add (hcut.symm ▸ h) h'
        have hlen := congrArg List.length hcut
        rw [List.length_append] at hlen
        omega
  | other c y hy ih =>
    rw [scan_line_cons hy]
    have hs' : slashesLast y = true := by simpa [slashesLast, hy] using hs
    by_cases hp : ['*', '/'] <+: c :: y
    · -- then there is nothing but the closing mark and a slash behind it
      rw [toClose_closing hp] at h
      cases h
      obtain ⟨r, hr⟩ := hp
      obtain ⟨rfl, rfl⟩ : '*' = c ∧ '/' :: r = y := List.cons.inj hr
      simp only [List.length_cons] at hn
      match r, hn with
      | [], _ => cases hs'
      | [d], _ =>
        have hd : d = '/' := by
          by_contra hd
          have hpair : ¬ ['/', '/'] <+: ['/', d] := by simp [List.cons_prefix_cons, Ne.symm hd]
          have hsingle : ¬ ['/', '/'] <+: [d] := fun h =>
            Nat.not_succ_le_self 1 h.length_le
          simp [slashesLast, hpair, hsingle] at hs'
        subst hd
        decide
    · obtain ⟨m, hm, rfl⟩ := Option.map_eq_some_iff.1 (toClose_cons hp ▸ h)
      have hp' : ¬ ['*', '/'] <+: c :: scan lineLength 0 y :=
        mt (prefix_cons_scan_line (by decide)) hp
      rw [toClose_cons hp', ih hm (Nat.le_of_succ_le_succ hn) hs']
      rfl

/-- Line comments are taken out of the parts of a text, if none begins in the first part and ends
behind it. -/
theorem scan_line_append (hs : slashesLast u = false) (hr : ¬ ['/'] <+: r) :
    scan lineLength 0 (u ++ r) = scan lineLength 0 u ++ scan lineLength 0 r := by
  induction u using line_induction with
  | nil => rfl
  | comment u hu ih =>
    have hn : '\n' ∈ u := by
      obtain ⟨v, rfl⟩ := hu
      have hv := (slashesLast_cons.1 hs).1 (List.prefix_append _ v)
      exact List.mem_cons_of_mem _ hv
    rw [scan_line (hu.trans (List.prefix_append u r)), dropLine_append hn, scan_line hu]
    exact ih (slashesLast_suffix hs (dropLine_suffix u))
  | other c u hu ih =>
    have hu' : ¬ ['/', '/'] <+: c :: (u ++ r) := by
      intro hu'
      cases u with
      | nil => exact hr (List.cons_prefix_cons.1 hu').2
      | cons d u => exact hu (by simpa [List.cons_prefix_cons] using hu')
    rw [List.cons_append, scan_line_cons hu', scan_line_cons hu,
      ih (slashesLast_cons.1 hs).2, List.cons_append]

end ShaderLink.Comment
