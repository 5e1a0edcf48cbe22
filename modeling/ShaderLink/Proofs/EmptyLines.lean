import ShaderLink.Proofs.Layouts
import ShaderLink.Proofs.Scans
import ShaderLink.Proofs.Serials

/-!
# Empty lines

Where a text has two line ends or more with only blanks between them, one empty line is written for
all that stands from the first to the last of them.  `Text.Tidied` says so without the pattern that
finds these places (`Text.tidied_normalise`).  Lines with something else in them are not touched, so
the linked text has the lines of its parts in order: `linkModule_keeps_lines`.
-/

namespace ShaderLink

open Pattern Cursor

namespace Text

/-- The lines that hold something else than blanks. -/
def codeLines (t : Text) : List Text := (t.split '\n').filter fun l => !l.all isBlank

/-- The line begins with a number sign, perhaps behind blanks. -/
def isDirective (l : Text) : Bool := (l.dropWhile isBlank).head? == some '#'

/-- The lines with directives. -/
def directives (t : Text) : List Text := (t.split '\n').filter isDirective

/-- A line ends behind blanks. -/
def Breaks (t : Text) : Prop := ∃ v w : Text, v.AllBlank ∧ t = v ++ '\n' :: w

/-- The second text is the first with one empty line in the place of several: from a line end to
the last one that only blanks separate from it, two line ends are written. -/
inductive Tidied : Text → Text → Prop
  | nil : Tidied [] []
  | keep {c : Char} {t u : Text} (h : c = '\n' → ¬ Breaks t) (ht : Tidied t u) :
    Tidied (c :: t) (c :: u)
  | gap {v w u : Text} (hv : v.AllBlank) (hw : ¬ Breaks w) (hu : Tidied w u) :
    Tidied ('\n' :: (v ++ '\n' :: w)) ('\n' :: '\n' :: u)

/-- No three line ends have only blanks between them. -/
def IsTidy (t : Text) : Prop :=
  ∀ v w : Text, v.AllBlank → w.AllBlank → ¬ '\n' :: (v ++ '\n' :: (w ++ ['\n'])) <:+: t

variable {c : Char} {t u v w u' : Text}

/-! ## Lines of code -/

theorem subset_of_mem_split {sep : Char} {l : Text} (h : l ∈ t.split sep) : l ⊆ t := by
  induction t generalizing l with
  | nil =>
    obtain rfl := List.mem_singleton.1 h
    exact List.nil_subset []
  | cons d t ih =>
    obtain ⟨p, ps, hp⟩ := List.exists_cons_of_ne_nil (splitWhere_ne_nil (· == sep) t)
    have hmem : ∀ q ∈ p :: ps, q ⊆ t := by
      rw [← hp]
      exact fun q hq => ih hq
    rw [List.forall_mem_cons] at hmem
    rw [split, splitWhere, hp] at h
    simp only at h
    split at h
    · rw [List.mem_cons, List.mem_cons] at h
      rcases h with rfl | rfl | h
      · exact List.nil_subset _
      · exact List.subset_cons_of_subset d hmem.1
      · exact List.subset_cons_of_subset d (hmem.2 l h)
    · rcases List.mem_cons.1 h with rfl | h
      · exact List.cons_subset_cons d hmem.1
      · exact List.subset_cons_of_subset d (hmem.2 l h)

theorem codeLines_append_cons (t u : Text) :
    codeLines (t ++ '\n' :: u) = codeLines t ++ codeLines u := by
  rw [codeLines, split, splitWhere_append_cons (· == '\n') (beq_self_eq_true '\n'),
    List.filter_append]
  rfl

theorem codeLines_of_allBlank (h : t.AllBlank) : codeLines t = [] := by
  refine List.filter_eq_nil_iff.2 fun l hl => ?_
  have hall : l.all isBlank = true := List.all_eq_true.2 fun c hc => h c (subset_of_mem_split hl hc)
  simp [hall]

/-- Lines with nothing but blanks between two line ends do not count. -/
theorem codeLines_gap (h : v.AllBlank) (t u : Text) :
    codeLines (t ++ '\n' :: (v ++ '\n' :: u)) = codeLines t ++ codeLines u := by
  rw [codeLines_append_cons, codeLines_append_cons, codeLines_of_allBlank h, List.nil_append]

theorem codeLines_join (ts : List Text) :
    codeLines (join "\n\n".toList ts) = ts.flatMap codeLines := by
  induction ts with
  | nil => rfl
  | cons t ts ih =>
    rw [join_cons, List.flatMap_cons]
    split
    · rename_i hnil
      rw [hnil, List.append_nil, List.flatMap_nil, List.append_nil]
    · have hgap := codeLines_gap (v := []) (List.forall_mem_nil _) t (join "\n\n".toList ts)
      rw [← ih, ← hgap]
      rfl

/-- A directive is a line of code. -/
theorem directives_eq_filter (t : Text) : directives t = (codeLines t).filter isDirective := by
  rw [directives, codeLines, List.filter_filter]
  refine List.filter_congr fun l _ => ?_
  by_cases hall : l.all isBlank = true
  · have hnil : l.dropWhile isBlank = [] :=
      List.dropWhile_eq_nil_iff.2 (List.all_eq_true.1 hall)
    simp [isDirective, hnil]
  · simp [hall]

/-! ## Line ends behind blanks -/

theorem breaks_of_isPrefix (hv : v.AllBlank) (h : v ++ '\n' :: w <+: t) : Breaks t := by
  obtain ⟨s, rfl⟩ := h
  exact ⟨v, w ++ s, hv, List.append_assoc v _ s⟩

theorem Breaks.append (hv : v.AllBlank) (h : Breaks t) : Breaks (v ++ t) := by
  obtain ⟨v', w, hv', rfl⟩ := h
  exact ⟨v ++ v', w, List.forall_mem_append.2 ⟨hv, hv'⟩, (List.append_assoc v v' _).symm⟩

theorem breaks_newline (t : Text) : Breaks ('\n' :: t) := ⟨[], t, List.forall_mem_nil _, rfl⟩

theorem breaks_cons_iff (hc : c ≠ '\n') : Breaks (c :: t) ↔ isBlank c = true ∧ Breaks t := by
  constructor
  · rintro ⟨v, w, hv, h⟩
    cases v with
    | nil => exact absurd (List.cons.inj h).1 hc
    | cons d v =>
      obtain ⟨rfl, rfl⟩ := List.cons.inj h
      obtain ⟨hd, hv⟩ := List.forall_mem_cons.1 hv
      exact ⟨hd, v, w, hv, rfl⟩
  · rintro ⟨hblank, h⟩
    exact h.append (v := [c]) (List.forall_mem_singleton.2 hblank)

/-- There is a last line that ends behind blanks. -/
theorem Breaks.exists_last (h : Breaks t) :
    ∃ v w : Text, v.AllBlank ∧ ¬ Breaks w ∧ t = v ++ '\n' :: w := by
  induction t with
  | nil =>
    obtain ⟨v, w, -, h⟩ := h
    simp at h
  | cons c t ih =>
    by_cases ht : Breaks t
    · obtain ⟨v, w, hv, hw, rfl⟩ := ih ht
      have hc : isBlank c = true := by
        by_cases hc : c = '\n'
        · exact hc ▸ rfl
        · exact ((breaks_cons_iff hc).1 h).1
      exact ⟨c :: v, w, List.forall_mem_cons.2 ⟨hc, hv⟩, hw, rfl⟩
    · have hc : c = '\n' := by_contra fun hc => ht ((breaks_cons_iff hc).1 h).2
      exact ⟨[], t, List.forall_mem_nil _, ht, congrArg (· :: t) hc⟩

/-- The last one is the only one behind which no other follows. -/
theorem last_unique {v' w' : Text} (hv : v.AllBlank) (hv' : v'.AllBlank) (hw : ¬ Breaks w)
    (hw' : ¬ Breaks w') (h : v ++ '\n' :: w = v' ++ '\n' :: w') : v = v' ∧ w = w' := by
  induction v generalizing v' with
  | nil =>
    cases v' with
    | nil => exact ⟨rfl, (List.cons.inj h).2⟩
    | cons d v' =>
      obtain ⟨-, hv'⟩ := List.forall_mem_cons.1 hv'
      exact absurd ⟨v', w', hv', (List.cons.inj h).2⟩ hw
  | cons c v ih =>
    obtain ⟨-, hv⟩ := List.forall_mem_cons.1 hv
    cases v' with
    | nil => exact absurd ⟨v, w, hv, (List.cons.inj h).2.symm⟩ hw'
    | cons d v' =>
      obtain ⟨hcd, h⟩ := List.cons.inj h
      obtain ⟨hvv, hww⟩ := ih hv (List.forall_mem_cons.1 hv').2 h
      exact ⟨congrArg₂ _ hcd hvv, hww⟩

theorem IsTidy.cons (hu : IsTidy u)
    (h : ∀ v w : Text, v.AllBlank → w.AllBlank → c = '\n' → ¬ v ++ '\n' :: (w ++ ['\n']) <+: u) :
    IsTidy (c :: u) := by
  intro v w hv hw hinfix
  rcases List.infix_cons_iff.1 hinfix with hprefix | hinfix
  · obtain ⟨hc, hprefix⟩ := List.cons_prefix_cons.1 hprefix
    exact h v w hv hw hc.symm hprefix
  · exact hu v w hv hw hinfix

/-! ## One empty line in the place of several -/

namespace Tidied

/-- No line end comes to stand behind blanks that did not stand there before. -/
theorem breaks (h : Tidied t u) (hu : Breaks u) : Breaks t := by
  induction h with
  | nil => exact hu
  | @keep c t u h ht ih =>
    by_cases hc : c = '\n'
    · exact hc ▸ breaks_newline t
    · obtain ⟨hblank, hu⟩ := (breaks_cons_iff hc).1 hu
      exact (breaks_cons_iff hc).2 ⟨hblank, ih hu⟩
  | gap => exact breaks_newline _

/-- Lines of code stay as they are, also behind other text. -/
theorem codeLines_append (h : Tidied t u) (p : Text) : codeLines (p ++ u) = codeLines (p ++ t) := by
  induction h generalizing p with
  | nil => rfl
  | @keep c t u h ht ih =>
    have hp : ∀ t, p ++ c :: t = p ++ [c] ++ t := fun t => List.append_cons p c t
    rw [hp u, hp t, ih]
  | @gap v w u hv hw hu ih =>
    have hu : codeLines (p ++ '\n' :: '\n' :: u) = codeLines p ++ codeLines u :=
      codeLines_gap (List.forall_mem_nil _) p u
    rw [hu, codeLines_gap hv, ← List.nil_append u, ih []]
    rfl

theorem isTidy (h : Tidied t u) : IsTidy u := by
  induction h with
  | nil =>
    intro v w _ _ h
    cases List.infix_nil.1 h
  | keep h ht ih =>
    exact ih.cons fun v w hv _ hc hprefix => h hc (ht.breaks (breaks_of_isPrefix hv hprefix))
  | gap _ hw hu ih =>
    refine (ih.cons fun v w hv _ _ h => ?_).cons fun v w hv hw' _ h => ?_
    · exact hw (hu.breaks (breaks_of_isPrefix hv h))
    · cases v with
      | nil => exact hw (hu.breaks (breaks_of_isPrefix hw' (List.cons_prefix_cons.1 h).2))
      | cons d v =>
        have hv := (List.forall_mem_cons.1 hv).2
        exact hw (hu.breaks (breaks_of_isPrefix hv (List.cons_prefix_cons.1 h).2))

/-- A tidied text is left as it is. -/
theorem again (h : Tidied t u) : Tidied u u := by
  induction h with
  | nil => exact .nil
  | keep h ht ih => exact .keep (fun hc hu => h hc (ht.breaks hu)) ih
  | gap hv hw hu ih => exact .gap (v := []) (List.forall_mem_nil _) (fun h => hw (hu.breaks h)) ih

theorem unique (h : Tidied t u) (h' : Tidied t u') : u = u' := by
  induction h generalizing u' with
  | nil =>
    cases h'
    rfl
  | @keep c t u h ht ih =>
    generalize hs : c :: t = s at h'
    cases h' with
    | nil => cases hs
    | keep _ ht' =>
      obtain ⟨rfl, rfl⟩ := List.cons.inj hs
      exact congrArg _ (ih ht')
    | gap hv _ _ =>
      obtain ⟨rfl, rfl⟩ := List.cons.inj hs
      exact absurd ⟨_, _, hv, rfl⟩ (h rfl)
  | @gap v w u hv hw hu ih =>
    generalize hs : '\n' :: (v ++ '\n' :: w) = s at h'
    cases h' with
    | nil => cases hs
    | keep h _ =>
      obtain ⟨rfl, rfl⟩ := List.cons.inj hs
      exact absurd ⟨_, _, hv, rfl⟩ (h rfl)
    | gap hv' hw' hu' =>
      obtain ⟨-, rfl⟩ := last_unique hv hv' hw hw' (List.cons.inj hs).2
      rw [ih hu']

end Tidied

/-! ## Finding the places -/

section Matching

variable {k : Cursor}

theorem allBlank_of_newlines (h : ∀ c ∈ v, (c == '\n') = true) : v.AllBlank := by
  intro c hc
  rw [beq_iff_eq.1 (h c hc)]
  rfl

theorem exists_of_accepts_newlines (h : (many1 (lit '\n')).Accepts u) :
    ∃ n : Text, n.AllBlank ∧ u = '\n' :: n := by
  obtain ⟨hne, hu⟩ := accepts_many1_one.1 h
  obtain ⟨c, n, rfl⟩ := List.exists_cons_of_ne_nil hne
  obtain ⟨hc, hn⟩ := List.forall_mem_cons.1 hu
  exact ⟨n, allBlank_of_newlines hn, congrArg (· :: n) (beq_iff_eq.1 hc)⟩

theorem exists_newlines (v : Text) : ∃ n s : Text, (∀ c ∈ n, (c == '\n') = true) ∧
    (∀ c ∈ s.head?, (c == '\n') = false) ∧ v = n ++ s := by
  refine ⟨v.takeWhile (· == '\n'), v.dropWhile (· == '\n'), fun c hc => ?_, fun c hc => ?_,
    List.takeWhile_append_dropWhile.symm⟩
  · exact List.mem_takeWhile_imp (p := (· == '\n')) hc
  · have hhead := List.head?_dropWhile_not (· == '\n') v
    rw [Option.mem_def.1 hc] at hhead
    exact hhead

/-- What is tried behind a line end. -/
theorem exists_of_prefix_takeWhile {test : Char → Bool} (hne : u ≠ [])
    (hu : u <+: ('\n' :: w).takeWhile test) :
    ∃ b s, u = '\n' :: b ∧ w = b ++ s ∧ ∀ c ∈ b, test c = true := by
  obtain ⟨s, hs⟩ := hu.trans (List.takeWhile_prefix test)
  obtain ⟨c, b, rfl⟩ := List.exists_cons_of_ne_nil hne
  obtain ⟨hc, hw⟩ := List.cons.inj hs
  refine ⟨b, s, congrArg (· :: b) hc, hw.symm, fun d hd => ?_⟩
  exact List.mem_takeWhile_imp (hu.subset (List.mem_cons_of_mem c hd))

theorem run_newlines (hk : k.rest = '\n' :: t) (done : Cursor → Option Cursor) :
    (many1 (lit '\n')).run k done = (chars (· == '\n')).run (k.after ['\n']) done := by
  show (one (· == '\n')).run k (fun k' => (chars (· == '\n')).run k' done) = _
  exact run_one hk (beq_self_eq_true '\n')

theorem run_newlines_eq_none (h : ∀ t, k.rest ≠ '\n' :: t) (done : Cursor → Option Cursor) :
    (many1 (lit '\n')).run k done = none := by
  show (lit '\n').run k (fun k' => (chars (· == '\n')).run k' done) = none
  exact run_lit_of_ne h

theorem run_lastBreak (hw : ¬ Breaks w) (hk : k.rest = '\n' :: w) :
    (many1 (lit '\n')).run k some = some (k.after ['\n']) := by
  have hrest : (k.after ['\n']).rest = w := rest_after_of_eq hk
  have hnone : w.takeWhile (· == '\n') = [] := by
    cases w with
    | nil => rfl
    | cons c w =>
      have hc : c ≠ '\n' := fun hc => hw (hc ▸ breaks_newline w)
      exact List.takeWhile_cons_of_neg fun h => hc (beq_iff_eq.1 h)
  rw [run_newlines hk, run_chars_eq fun _ _ _ => rfl, hrest, hnone, after_nil]

/-- The blanks go up to the last line end. -/
theorem run_breaks (hv : v.AllBlank) (hw : ¬ Breaks w) (hk : k.rest = v ++ '\n' :: w) :
    (blanks ++ many1 (lit '\n')).run k some = some (k.after (v ++ ['\n'])) := by
  have hdone : (many1 (lit '\n')).run (k.after v) some = some (k.after (v ++ ['\n'])) := by
    rw [run_lastBreak hw (rest_after_of_eq hk), after_after]
  rw [← hdone]
  refine run_chars_of_last hk hv (fun u hne hu => ?_) (by rw [hdone]; rfl)
  obtain ⟨b, s, rfl, rfl, hb⟩ := exists_of_prefix_takeWhile hne hu
  refine run_newlines_eq_none (fun t ht => hw ⟨b, t, hb, ?_⟩) some
  rw [rest_after_of_eq (t := s) (by rw [hk, List.append_assoc]; rfl)] at ht
  rw [ht]

theorem run_breaks_eq_none (h : ¬ Breaks k.rest) :
    (blanks ++ many1 (lit '\n')).run k some = none := by
  rw [Option.eq_none_iff_forall_ne_some]
  intro k' hk'
  obtain ⟨u, t, ⟨v, n, hv, hn, rfl⟩, hu, -⟩ := exists_of_run rfl rfl hk'
  obtain ⟨n, -, rfl⟩ := exists_of_accepts_newlines hn
  refine h ⟨v, n ++ t, hv, ?_⟩
  rw [hu, List.append_assoc, List.cons_append]

theorem run_emptyLines (hv : v.AllBlank) (hw : ¬ Breaks w)
    (hk : k.rest = '\n' :: (v ++ '\n' :: w)) :
    emptyLines.run k some = some (k.after ('\n' :: (v ++ ['\n']))) := by
  have hrest : (k.after ['\n']).rest = v ++ '\n' :: w := rest_after_of_eq hk
  -- the line ends at the beginning are taken first, as long as another one follows
  obtain ⟨n, s, hn, hs, rfl⟩ := exists_newlines v
  rw [List.append_assoc] at hrest
  have hblank : s.AllBlank := fun c hc => hv c (List.mem_append_right n hc)
  have hdone : (blanks ++ many1 (lit '\n')).run ((k.after ['\n']).after n) some =
      some (k.after ('\n' :: (n ++ s ++ ['\n']))) := by
    rw [run_breaks hblank hw (rest_after_of_eq hrest), after_after, after_after]
    simp
  rw [← hdone]
  refine (run_newlines hk fun k' => (blanks ++ many1 (lit '\n')).run k' some).trans ?_
  refine run_chars_of_last hrest hn (fun u hne hu => ?_) (by rw [hdone]; rfl)
  cases s with
  | nil =>
    obtain ⟨b, t, rfl, rfl, hb⟩ := exists_of_prefix_takeWhile hne hu
    refine run_breaks_eq_none fun h => hw ?_
    rw [rest_after_of_eq (t := t) (by rw [hrest, List.append_assoc]; rfl)] at h
    exact h.append (allBlank_of_newlines hb)
  | cons d s =>
    rw [List.cons_append, List.takeWhile_cons_of_neg (by simp [hs d rfl]), List.prefix_nil] at hu
    exact absurd hu hne

theorem run_emptyLines_eq_none (h : ∀ t, k.rest = '\n' :: t → ¬ Breaks t) :
    emptyLines.run k some = none := by
  rw [Option.eq_none_iff_forall_ne_some]
  intro k' hk'
  obtain ⟨u, t, ⟨_, n, ⟨m, v, hm, hv, rfl⟩, hn, rfl⟩, hu, -⟩ := exists_of_run rfl rfl hk'
  obtain ⟨m, hblank, rfl⟩ := exists_of_accepts_newlines hm
  obtain ⟨n, -, rfl⟩ := exists_of_accepts_newlines hn
  refine h (m ++ (v ++ '\n' :: (n ++ t))) (by simp [hu]) ?_
  exact Breaks.append hblank ⟨v, n ++ t, hv, rfl⟩

theorem exists_here_emptyLines (hv : v.AllBlank) (hw : ¬ Breaks w) (before : Option Char)
    (start : Nat) : ∃ m, emptyLines.here before start ('\n' :: (v ++ '\n' :: w)).length
      ('\n' :: (v ++ '\n' :: w)) = some m ∧ m.text.length = v.length + 2 := by
  generalize ht : '\n' :: (v ++ '\n' :: w) = t
  generalize hk : (⟨before, t, t.length, []⟩ : Cursor) = k
  have hcounts : k.Counts := by
    rw [← hk]
    rfl
  have hrest : k.rest = '\n' :: (v ++ '\n' :: w) := by
    rw [← hk, ht]
  have hcut : k.rest = '\n' :: (v ++ ['\n']) ++ w := by simp [hrest]
  have htext : (k.upTo (k.after ('\n' :: (v ++ ['\n'])))).text = '\n' :: (v ++ ['\n']) :=
    text_upTo_after hcounts hcut
  rw [here, hk, run_emptyLines hv hw hrest]
  refine ⟨_, rfl, ?_⟩
  show (Span.text _).length = _
  rw [htext]
  simp

end Matching

/-- What is written for a piece: two line ends for a match. -/
def tidyPiece : Piece → Text
  | .kept c => [c]
  | .found _ => "\n\n".toList

theorem tidied_piecesFrom (before : Option Char) (skip start : Nat) (t : Text) :
    Tidied (t.drop skip)
      ((emptyLines.piecesFrom before skip start t.length t).flatMap tidyPiece) := by
  induction t generalizing before skip start with
  | nil =>
    have hhere : emptyLines.here before start 0 [] = none := by
      rw [here, run_emptyLines_eq_none]
      · rfl
      · exact fun t ht => absurd ht.symm (List.cons_ne_nil _ t)
    cases skip <;> simpa [piecesFrom, hhere] using Tidied.nil
  | cons c t ih =>
    cases skip with
    | succ skip => exact ih (some c) skip (start + 1)
    | zero =>
      by_cases h : c = '\n' ∧ Breaks t
      · obtain ⟨rfl, ht⟩ := h
        obtain ⟨v, w, hv, hw, rfl⟩ := ht.exists_last
        obtain ⟨m, hm, hlength⟩ := exists_here_emptyLines hv hw before start
        have hrest := ih (some '\n') (v.length + 1) (start + 1)
        have hdrop : (v ++ '\n' :: w).drop (v.length + 1) = w := by
          rw [List.append_cons]
          exact List.drop_left' (by simp)
        rw [hdrop] at hrest
        simp only [piecesFrom, hm, hlength]
        exact .gap hv hw hrest
      · have hhere : emptyLines.here before start (c :: t).length (c :: t) = none := by
          rw [here, run_emptyLines_eq_none]
          · rfl
          · rintro s hs ht
            obtain ⟨rfl, rfl⟩ := List.cons.inj hs
            exact h ⟨rfl, ht⟩
        rw [piecesFrom, hhere]
        exact .keep (fun hc ht => h ⟨hc, ht⟩) (ih (some c) 0 (start + 1))

end Text

/-! ## The linked text -/

theorem tidied_normalise (t : Text) : t.Tidied (normalise t) := Text.tidied_piecesFrom none 0 0 t

theorem normalise_normalise (t : Text) : normalise (normalise t) = normalise t :=
  (tidied_normalise _).unique (tidied_normalise t).again

theorem codeLines_normalise (t : Text) : (normalise t).codeLines = t.codeLines :=
  (tidied_normalise t).codeLines_append []

theorem codeLines_block (d : Declaration) (renames : Table Text Text) :
    (d.block renames).codeLines = d.caption.codeLines ++ (d.resolvedDefinition renames).codeLines :=
  Text.codeLines_append_cons _ _

theorem flatMap_codeLines_filter (ts : List Text) :
    (ts.filter (!·.isEmpty)).flatMap Text.codeLines = ts.flatMap Text.codeLines := by
  induction ts with
  | nil => rfl
  | cons t ts ih =>
    cases t with
    | nil => exact ih
    | cons c t => exact congrArg (Text.codeLines (c :: t) ++ ·) ih

theorem codeLines_linkedText (remainder : Text) (renames : Table Text Text)
    (ordered : List Declaration) :
    (linkedText remainder renames ordered).codeLines = remainder.trim.codeLines ++
      ordered.flatMap fun d => d.caption.codeLines ++ (d.resolvedDefinition renames).codeLines := by
  rw [linkedText, codeLines_normalise, Text.codeLines_join, partsOf, flatMap_codeLines_filter,
    List.flatMap_cons, List.flatMap_map]
  simp only [codeLines_block]

/-- A text has the lines of what is left of the code and of declarations in order, each behind its
caption, and empty lines stand alone. -/
structure KeepsLines (text remainder : Text) (renames : Table Text Text)
    (ordered : List Declaration) : Prop where
  codeLines : text.codeLines = remainder.trim.codeLines ++
    ordered.flatMap fun d => d.caption.codeLines ++ (d.resolvedDefinition renames).codeLines
  directives : text.directives = remainder.trim.directives ++
    ordered.flatMap fun d => d.caption.directives ++ (d.resolvedDefinition renames).directives
  isTidy : text.IsTidy
  normalise : normalise text = text

theorem keepsLines_linkedText (remainder : Text) (renames : Table Text Text)
    (ordered : List Declaration) :
    KeepsLines (linkedText remainder renames ordered) remainder renames ordered where
  codeLines := codeLines_linkedText remainder renames ordered
  directives := by
    simp only [Text.directives_eq_filter, codeLines_linkedText, List.filter_append,
      List.filter_flatMap]
  isTidy := (tidied_normalise _).isTidy
  normalise := normalise_normalise _

/-- The parts of a linked text: what is left of the code, unless that is nothing, and each
declaration in order below a comment with its id. -/
def blocksOf (remainder : Text) (renames : Table Text Text) (ordered : List Declaration) :
    List Text :=
  (if remainder.trim = [] then [] else [remainder.trim]) ++
    ordered.map fun d => "/* ".toList ++ d.id ++ " */\n".toList ++ d.resolvedDefinition renames

/-- A text consists of what is left of the code and of blocks for the declarations in order, with an
empty line between two of them, but for empty lines that are tidied. -/
structure Emits (text remainder : Text) (renames : Table Text Text) (ordered : List Declaration) :
    Prop extends KeepsLines text remainder renames ordered where
  tidied : Text.Tidied (Text.join "\n\n".toList (blocksOf remainder renames ordered)) text

theorem partsOf_eq_blocksOf (remainder : Text) (renames : Table Text Text)
    (ordered : List Declaration) :
    partsOf remainder renames ordered = blocksOf remainder renames ordered := by
  have hblock : ∀ d : Declaration, d.block renames =
      "/* ".toList ++ d.id ++ " */\n".toList ++ d.resolvedDefinition renames := by
    intro d
    simp [Declaration.block, Declaration.caption]
  have hne : ∀ t ∈ ordered.map (·.block renames), (!t.isEmpty) = true := by
    intro t ht
    obtain ⟨d, -, rfl⟩ := List.mem_map.1 ht
    rfl
  rw [partsOf, blocksOf, List.filter_cons, List.filter_eq_self.2 hne]
  simp only [hblock]
  cases remainder.trim <;> rfl

theorem emits_linkedText (remainder : Text) (renames : Table Text Text)
    (ordered : List Declaration) :
    Emits (linkedText remainder renames ordered) remainder renames ordered where
  toKeepsLines := keepsLines_linkedText remainder renames ordered
  tidied := by
    rw [← partsOf_eq_blocksOf]
    exact tidied_normalise _

/-- Whatever is linked, no line of code is lost, changed or moved, and nothing is left to tidy. -/
theorem linkModule_keeps_lines :
    (∀ remainder renames ordered,
      KeepsLines (linkedText remainder renames ordered) remainder renames ordered) ∧
    ∀ i s, Ends (fun text _ => ∃ ds s₁ ordered, gather i s = (.ok ds, s₁) ∧
      Precedence.sort ds = .ok ordered ∧
        KeepsLines text (s₁.module i).remainder (Renaming.ofDeclarations ds) ordered)
      (fun _ => True) (linkModule i s) := by
  refine ⟨keepsLines_linkedText, fun i s => ends_linkModule_of_gather ?_⟩
  rcases hgather : gather i s with ⟨fault | ds, s₁⟩
  · trivial
  · refine fun s₂ _ => ⟨fun text htext => ?_, fun _ _ => trivial⟩
    obtain ⟨ordered, hordered, rfl⟩ := linkedWith_eq_ok_iff.1 htext
    exact ⟨ds, s₁, ordered, rfl, hordered, keepsLines_linkedText _ _ ordered⟩

end ShaderLink
