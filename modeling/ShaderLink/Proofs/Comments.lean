import ShaderLink.Proofs.LineComments

/-!
# Stripping comments against reading them

Stripping takes out line comments first and block comments then, so that two slashes inside a block
comment can take its closing mark away.  If this happens to no comment of a text, what stripping
leaves is what a reader keeps (`strip_eq_scan`); `strip_eq_scan_iff` says that the two agree on all
beginnings of a text if and only if no comment of it `LosesClose`.
-/

namespace ShaderLink.Comment

/-- A block comment whose closing mark is part of what two slashes seem to begin: they stand before
it on its line, or the second one right behind it. -/
def Found.LosesClose (f : Found) : Prop :=
  ['/', '*'] <+: f.text ∧ (slashesLast f.text = true ∨ ['/'] <+: f.rest)

instance (f : Found) : Decidable f.LosesClose := inferInstanceAs (Decidable (_ ∧ _))

/-- Some block comment of the text has a closing mark that is part of what two slashes seem to
begin. -/
def LosesClose (t : Text) : Prop := ∃ f ∈ found 0 t, f.LosesClose

instance (t : Text) : Decidable (LosesClose t) :=
  inferInstanceAs (Decidable (∃ f ∈ found 0 t, f.LosesClose))

variable {c : Char} {t u v r y : Text} {n : Nat}

/-! ## What comes first -/

theorem strip_line (h : ['/', '/'] <+: t) : strip t = strip (dropLine t) := by
  rw [strip_eq_scan_scan, scan_line h, ← strip_eq_scan_scan]

theorem length_line (h : ['/', '/'] <+: t) :
    length t = (t.takeWhile (· != '\n')).length := by
  rw [length, if_neg fun hzero => lineLength_eq_zero_iff.1 hzero h, lineLength, if_pos h]

theorem length_eq_zero_iff : length t = 0 ↔ ¬ ['/', '/'] <+: t ∧ blockLength t = 0 := by
  rw [length]
  split
  case isTrue h => simp [lineLength_eq_zero_iff.1 h]
  case isFalse h => simp [h, mt lineLength_eq_zero_iff.2 h]

/-- A block comment with its opening mark, given what follows that. -/
def opened (y : Text) : Text := '/' :: '*' :: y

theorem blockLength_opened : blockLength (opened y) = ((toClose y).map (· + 2)).getD 0 :=
  if_pos ⟨y, rfl⟩

theorem blockLength_opened_eq_zero_iff : blockLength (opened y) = 0 ↔ toClose y = none := by
  rw [blockLength_opened]
  cases toClose y <;> simp

theorem blockLength_of_toClose (h : toClose y = some y.length) (r : Text) :
    blockLength (opened y ++ r) = (opened y).length := by
  show blockLength (opened (y ++ r)) = _
  rw [blockLength_opened, toClose_append h r]
  rfl

theorem length_opened (h : toClose y = some y.length) (r : Text) :
    length (opened y ++ r) = (opened y).length := by
  have hline : lineLength (opened y ++ r) = 0 := lineLength_eq_zero_iff.2 (by
    rintro ⟨v, hv⟩
    cases hv)
  rw [length, if_pos hline, blockLength_of_toClose h]

theorem scan_line_opened (y : Text) :
    scan lineLength 0 (opened y) = opened (scan lineLength 0 y) := by
  have hslash : ¬ ['/', '/'] <+: '/' :: '*' :: y := by simp [List.cons_prefix_cons]
  have hstar : ¬ ['/', '/'] <+: '*' :: y := by simp [List.cons_prefix_cons]
  rw [opened, scan_line_cons hslash, scan_line_cons hstar, opened]

/-- A block comment that keeps its closing mark is taken out. -/
theorem strip_opened (h : toClose y = some y.length) (hs : slashesLast (opened y) = false)
    (hr : ¬ ['/'] <+: r) : strip (opened y ++ r) = strip r := by
  have hs' : slashesLast y = false := slashesLast_suffix hs ⟨['/', '*'], rfl⟩
  have hclose := toClose_scan_line_append h hs' []
  rw [List.append_nil] at hclose
  have hlen := blockLength_of_toClose hclose (scan lineLength 0 r)
  have hne : blockLength (opened (scan lineLength 0 y) ++ scan lineLength 0 r) ≠ 0 := by
    rw [hlen]
    exact Nat.succ_ne_zero _
  rw [strip_eq_scan_scan, scan_line_append hs hr, scan_line_opened, scan_of_ne_zero hne, hlen,
    List.drop_left, ← strip_eq_scan_scan]

/-- A character at which no comment begins is kept. -/
theorem strip_cons (h : length (c :: t) = 0) : strip (c :: t) = c :: strip t := by
  obtain ⟨hline, hblock⟩ := length_eq_zero_iff.1 h
  rw [strip_eq_scan_scan, scan_line_cons hline, strip_eq_scan_scan]
  refine scan_cons ?_
  by_cases hp : ['/', '*'] <+: c :: scan lineLength 0 t
  · obtain ⟨y, hy⟩ := prefix_cons_scan_line (by decide) hp
    have hopen : c :: t = opened y := hy.symm
    rw [hopen, blockLength_opened_eq_zero_iff] at hblock
    rw [← scan_line_cons hline, hopen, scan_line_opened, blockLength_opened_eq_zero_iff]
    exact toClose_scan_line hblock
  · exact if_neg hp

/-- A text is empty, begins with a comment of either kind, or with a character outside of
comments. -/
theorem comment_induction {motive : Text → Prop} (nil : motive [])
    (line : ∀ t, ['/', '/'] <+: t → motive (dropLine t) → motive t)
    (block : ∀ y r, toClose y = some y.length → motive r → motive (opened y ++ r))
    (other : ∀ c t, length (c :: t) = 0 → motive t → motive (c :: t)) (t : Text) : motive t := by
  induction hn : t.length using Nat.strongRecOn generalizing t with
  | ind n ih =>
    subst hn
    by_cases hline : ['/', '/'] <+: t
    · exact line t hline (ih _ (length_dropLine_lt hline) _ rfl)
    · cases t with
      | nil => exact nil
      | cons c t =>
        by_cases hblock : blockLength (c :: t) = 0
        · exact other c t (length_eq_zero_iff.2 ⟨hline, hblock⟩) (ih _ (Nat.lt_succ_self _) t rfl)
        · have hp : ['/', '*'] <+: c :: t := by
            by_contra hp
            exact hblock (if_neg hp)
          obtain ⟨y, hy⟩ := hp
          have hopen : opened y = c :: t := hy
          rw [← hopen, blockLength_opened_eq_zero_iff] at hblock
          obtain ⟨n, hclose⟩ := Option.ne_none_iff_exists'.1 hblock
          have hbounds := toClose_bounds hclose
          have hlen : (y.take n).length = n := List.length_take_of_le hbounds.2
          have hcut : opened (y.take n) ++ y.drop n = c :: t := by
            rw [← hopen]
            exact congrArg opened (List.take_append_drop n y)
          rw [← hcut]
          refine block _ _ ?_ (ih _ ?_ _ rfl)
          · rw [hlen]
            exact toClose_take hclose
          · rw [← hopen, opened, List.length_cons, List.length_cons, List.length_drop]
            omega

/-! ## Agreement -/

theorem length_line_ne_zero (h : ['/', '/'] <+: t) : length t ≠ 0 :=
  fun hzero => (length_eq_zero_iff.1 hzero).1 h

theorem drop_length_line (h : ['/', '/'] <+: t) : t.drop (length t) = dropLine t := by
  rw [length_line h]
  exact (congrArg (List.drop _) (takeWhile_append_dropLine t).symm).trans List.drop_left

theorem scan_length_line (h : ['/', '/'] <+: t) :
    scan length 0 t = scan length 0 (dropLine t) := by
  rw [scan_of_ne_zero (length_line_ne_zero h), drop_length_line h]

theorem found_line (h : ['/', '/'] <+: t) :
    found 0 t = ⟨t.takeWhile (· != '\n'), dropLine t⟩ :: found 0 (dropLine t) := by
  have hne : t ≠ [] := by
    rintro rfl
    simp at h
  rw [found_of_ne_zero (length_line_ne_zero h) hne, drop_length_line h, length_line h,
    ← List.prefix_iff_eq_take.1 (List.takeWhile_prefix _)]

theorem scan_length_opened (h : toClose y = some y.length) (r : Text) :
    scan length 0 (opened y ++ r) = scan length 0 r := by
  have hlen := length_opened h r
  have hne : length (opened y ++ r) ≠ 0 := by
    rw [hlen]
    exact Nat.succ_ne_zero _
  rw [scan_of_ne_zero hne, hlen, List.drop_left]

theorem found_opened (h : toClose y = some y.length) (r : Text) :
    found 0 (opened y ++ r) = ⟨opened y, r⟩ :: found 0 r := by
  have hlen := length_opened h r
  have hne : length (opened y ++ r) ≠ 0 := by
    rw [hlen]
    exact Nat.succ_ne_zero _
  rw [found_of_ne_zero hne (List.cons_ne_nil _ _), hlen, List.drop_left, List.take_left]

theorem length_cons_of_ne (hc : c ≠ '/') (t : Text) : length (c :: t) = 0 := by
  have hline : ¬ ['/', '/'] <+: c :: t := fun h => hc (List.cons_prefix_cons.1 h).1.symm
  have hblock : ¬ ['/', '*'] <+: c :: t := fun h => hc (List.cons_prefix_cons.1 h).1.symm
  exact length_eq_zero_iff.2 ⟨hline, if_neg hblock⟩

theorem length_eq_zero_mono (h : length t = 0) (hu : u <+: t) : length u = 0 := by
  obtain ⟨hline, hblock⟩ := length_eq_zero_iff.1 h
  refine length_eq_zero_iff.2 ⟨fun hp => hline (hp.trans hu), ?_⟩
  by_contra hne
  have hp : ['/', '*'] <+: u := by
    by_contra hp
    exact hne (if_neg hp)
  obtain ⟨y, rfl⟩ := hp
  obtain ⟨w, rfl⟩ := hu
  change blockLength (opened y) ≠ 0 at hne
  change blockLength (opened (y ++ w)) = 0 at hblock
  rw [ne_eq, blockLength_opened_eq_zero_iff, ← ne_eq, Option.ne_none_iff_exists'] at hne
  obtain ⟨n, hn⟩ := hne
  rw [blockLength_opened_eq_zero_iff, toClose_append hn w] at hblock
  cases hblock

/-! ### Lost closing marks -/

theorem losesClose_nil : ¬ LosesClose [] := by
  rintro ⟨f, hf, -⟩
  cases hf

theorem losesClose_line (h : ['/', '/'] <+: t) : LosesClose t ↔ LosesClose (dropLine t) := by
  have hline : ¬ Found.LosesClose ⟨t.takeWhile (· != '\n'), dropLine t⟩ := by
    rintro ⟨hp, -⟩
    have hopen : ['/', '*'] <+: t := hp.trans (List.takeWhile_prefix _)
    obtain ⟨v, rfl⟩ := h
    simp [List.cons_prefix_cons] at hopen
  rw [LosesClose, found_line h]
  simp [LosesClose, hline]

theorem losesClose_opened (h : toClose y = some y.length) : LosesClose (opened y ++ r) ↔
    (slashesLast (opened y) = true ∨ ['/'] <+: r) ∨ LosesClose r := by
  have hblock : Found.LosesClose ⟨opened y, r⟩ ↔
      slashesLast (opened y) = true ∨ ['/'] <+: r := and_iff_right ⟨y, rfl⟩
  rw [LosesClose, found_opened h, ← hblock]
  simp [LosesClose]

theorem losesClose_cons (h : length (c :: t) = 0) : LosesClose (c :: t) ↔ LosesClose t := by
  rw [LosesClose, found_cons h, LosesClose]

/-- Without a closing mark there are only line comments. -/
theorem not_losesClose_of_toClose (h : toClose t = none) : ¬ LosesClose t := by
  induction t using comment_induction with
  | nil => exact losesClose_nil
  | line t ht ih =>
    rw [losesClose_line ht]
    exact ih (toClose_suffix h (dropLine_suffix t))
  | block y r hy ih =>
    have hnone : toClose (y ++ r) = none := toClose_suffix h ⟨['/', '*'], rfl⟩
    rw [toClose_append hy r] at hnone
    cases hnone
  | other c t ht ih =>
    rw [losesClose_cons ht]
    exact ih (toClose_suffix h (List.suffix_cons c t))

/-- A closing mark that is lost in the beginning of a text is lost in the text. -/
theorem LosesClose.extend (h : LosesClose u) (hu : u <+: t) : LosesClose t := by
  obtain ⟨w, rfl⟩ := hu
  induction u using comment_induction with
  | nil => exact absurd h losesClose_nil
  | line u hu ih =>
    rw [losesClose_line hu] at h
    rcases dropLine_eq u with ⟨-, hnil⟩ | ⟨hmem, -⟩
    · exact absurd (hnil ▸ h) losesClose_nil
    · rw [losesClose_line (hu.trans (List.prefix_append u w)), dropLine_append hmem]
      exact ih h
  | block y r hy ih =>
    rw [losesClose_opened hy] at h
    rw [List.append_assoc, losesClose_opened hy]
    exact h.imp (Or.imp_right fun hr => hr.trans (List.prefix_append r w)) ih
  | other c u hu ih =>
    rw [losesClose_cons hu] at h
    by_cases hl : length (c :: (u ++ w)) = 0
    · exact (losesClose_cons hl).2 (ih h)
    · -- a comment begins here only with what follows `u`: it is one that `u` does not close
      exfalso
      obtain ⟨hline, hblock⟩ := length_eq_zero_iff.1 hu
      cases u with
      | nil => exact losesClose_nil h
      | cons d u =>
        have hline' : ¬ ['/', '/'] <+: c :: d :: (u ++ w) := by
          simpa [List.cons_prefix_cons] using hline
        have hp : ['/', '*'] <+: c :: d :: (u ++ w) := by
          by_contra hp
          exact hl (length_eq_zero_iff.2 ⟨hline', if_neg hp⟩)
        obtain ⟨rfl, hstar⟩ := List.cons_prefix_cons.1 hp
        obtain ⟨rfl, -⟩ := List.cons_prefix_cons.1 hstar
        have hclose : toClose u = none := blockLength_opened_eq_zero_iff.1 hblock
        rw [losesClose_cons (length_cons_of_ne (by decide) u)] at h
        exact not_losesClose_of_toClose hclose h

/-- What is left of a text is what a reader keeps, if every block comment keeps its closing
mark. -/
theorem strip_eq_scan (h : ¬ LosesClose t) : strip t = scan length 0 t := by
  induction t using comment_induction with
  | nil => exact strip_eq_scan_scan []
  | line t ht ih =>
    rw [losesClose_line ht] at h
    rw [strip_line ht, scan_length_line ht, ih h]
  | block y r hy ih =>
    rw [losesClose_opened hy, not_or, not_or, Bool.not_eq_true] at h
    rw [strip_opened hy h.1.1 h.1.2, scan_length_opened hy, ih h.2]
  | other c t ht ih =>
    rw [losesClose_cons ht] at h
    rw [strip_cons ht, scan_cons ht, ih h]

/-- A block comment without its closing mark stays. -/
theorem strip_opened_of_lost (h : toClose y = some n) (hn : y.length ≤ n + 1)
    (hs : slashesLast y = true) : strip (opened y) = opened (strip y) := by
  have hblock : blockLength (opened (scan lineLength 0 y)) = 0 :=
    blockLength_opened_eq_zero_iff.2 (toClose_scan_line_eq_none h hn hs)
  have hstar : blockLength ('*' :: scan lineLength 0 y) = 0 :=
    (length_eq_zero_iff.1 (length_cons_of_ne (by decide) _)).2
  rw [strip_eq_scan_scan, scan_line_opened, opened, scan_cons hblock, scan_cons hstar,
    ← strip_eq_scan_scan, opened]

theorem slashesLast_opened : slashesLast (opened y) = slashesLast y := by
  simp [opened, slashesLast, List.cons_prefix_cons]

theorem exists_append_of_toClose (h : toClose y = some y.length) : ∃ v, y = v ++ ['*', '/'] := by
  induction y with
  | nil => cases h
  | cons c y ih =>
    by_cases hp : ['*', '/'] <+: c :: y
    · rw [toClose_closing hp] at h
      exact ⟨[], (hp.eq_of_length (Option.some.inj h)).symm⟩
    · obtain ⟨v, hv⟩ := ih ((toClose_cons_eq_some hp).1 h)
      exact ⟨c :: v, congrArg (c :: ·) hv⟩

/-- Behind the first closing mark that is lost, or the slash that takes part in it, the comment is
still there. -/
theorem LosesClose.exists_strip_ne (h : LosesClose t) :
    ∃ u, u <+: t ∧ strip u ≠ scan length 0 u := by
  induction t using comment_induction with
  | nil => exact absurd h losesClose_nil
  | line t ht ih =>
    obtain ⟨u, hu, hne⟩ := ih ((losesClose_line ht).1 h)
    have hdrop : dropLine (t.takeWhile (· != '\n') ++ u) = u := by
      refine dropLine_takeWhile_append ?_ t
      cases u with
      | nil => exact Or.inl rfl
      | cons d u =>
        rcases dropLine_eq t with ⟨-, hnil⟩ | ⟨-, r, hr⟩
        · simp [hnil] at hu
        · rw [hr, List.cons_prefix_cons] at hu
          exact Or.inr ⟨u, by rw [hu.1]⟩
    have hp : ['/', '/'] <+: t.takeWhile (· != '\n') ++ u := by
      obtain ⟨v, rfl⟩ := ht
      exact List.prefix_append _ (v.takeWhile (· != '\n') ++ u)
    refine ⟨t.takeWhile (· != '\n') ++ u, ?_, ?_⟩
    · have hcut := (List.prefix_append_right_inj (t.takeWhile (· != '\n'))).2 hu
      rwa [takeWhile_append_dropLine] at hcut
    · rwa [strip_line hp, scan_length_line hp, hdrop]
  | block y r hy ih =>
    by_cases hs : slashesLast (opened y) = true
    · refine ⟨opened y, List.prefix_append _ r, ?_⟩
      rw [slashesLast_opened] at hs
      have hscan := scan_length_opened hy []
      rw [List.append_nil] at hscan
      rw [strip_opened_of_lost hy (Nat.le_succ _) hs, hscan]
      exact List.cons_ne_nil _ _
    · by_cases hr : ['/'] <+: r
      · refine ⟨opened y ++ ['/'], (List.prefix_append_right_inj _).2 hr, ?_⟩
        obtain ⟨v, hv⟩ := exists_append_of_toClose hy
        have hlast : slashesLast (y ++ ['/']) = true := by
          by_contra hfalse
          rw [Bool.not_eq_true] at hfalse
          have hpair : slashesLast ['/', '/'] = false :=
            slashesLast_suffix hfalse ⟨v ++ ['*'], by simp [hv]⟩
          cases hpair
        have hstrip := strip_opened_of_lost (toClose_append hy ['/']) (by simp) hlast
        show strip (opened (y ++ ['/'])) ≠ _
        rw [hstrip, scan_length_opened hy]
        exact fun heq => by cases heq
      · obtain ⟨u, hu, hne⟩ := ih (((losesClose_opened hy).1 h).resolve_left (by simp [hs, hr]))
        refine ⟨opened y ++ u, (List.prefix_append_right_inj _).2 hu, ?_⟩
        rwa [strip_opened hy (by simpa using hs) (mt (·.trans hu) hr), scan_length_opened hy]
  | other c t ht ih =>
    obtain ⟨u, hu, hne⟩ := ih ((losesClose_cons ht).1 h)
    have hcu : c :: u <+: c :: t := (List.prefix_cons_inj c).2 hu
    have hlen : length (c :: u) = 0 := length_eq_zero_mono ht hcu
    refine ⟨c :: u, hcu, ?_⟩
    rw [strip_cons hlen, scan_cons hlen]
    exact fun heq => hne (List.cons.inj heq).2

/-- Stripping agrees with reading on every beginning of a text if and only if every block comment
of the text keeps its closing mark. -/
theorem strip_eq_scan_iff (t : Text) :
    (∀ u, u <+: t → strip u = scan length 0 u) ↔ ¬ LosesClose t := by
  constructor
  · intro h hloses
    obtain ⟨u, hu, hne⟩ := hloses.exists_strip_ne
    exact hne (h u hu)
  · exact fun h u hu => strip_eq_scan fun hloses => h (hloses.extend hu)

/-- The two slashes in the comment take its closing mark away, so that it stays. -/
theorem strip_ne_scan_slashes : strip "/* // */ x".toList = "/* ".toList ∧
    scan length 0 "/* // */ x".toList = " x".toList := by
  decide

end ShaderLink.Comment
