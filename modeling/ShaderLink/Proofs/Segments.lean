import ShaderLink.Proofs.Runs

/-!
# Searches that take whole runs

What is found between word edges is made of whole runs of the text that is searched.  A pattern of
this kind is described by the number of runs it takes where they come next (`TakesRuns`), and a
search for it cuts the runs of a text into those outside of the matches and those of one match each
(`contents_pieces_of_takesRuns`).  The pattern of a whole word is of this kind, also if the word has
dots in it (`takesRuns_wholeWord`).
-/

namespace ShaderLink

open Text Pattern

/-- What a piece holds: a character outside of the matches, or the text of a match. -/
def Piece.content : Piece → Char ⊕ Text
  | .kept c => .inl c
  | .found m => .inr m.text

namespace Text

variable {t u w : Text} {rs us vs : List Run} {p : Pattern} {take : List Run → Nat}

/-! ## Cutting runs -/

theorem flatten_append (rs us : List Run) : flatten (rs ++ us) = flatten rs ++ flatten us :=
  List.flatMap_append

theorem Proper.tail {r : Run} (h : Proper (r :: us)) : Proper us := by
  cases r with
  | other c => exact h.2
  | word w => exact h.2.2

theorem Proper.right (h : Proper (us ++ vs)) : Proper vs := by
  induction us with
  | nil => exact h
  | cons r us ih => exact ih h.tail

theorem Proper.text_ne_nil {r : Run} (h : Proper (r :: rs)) : r.text ≠ [] := by
  cases r with
  | other c => exact List.cons_ne_nil c []
  | word w => exact h.1.1

/-- Behind runs that end with a word no word begins. -/
theorem Proper.opensWord_right (h : Proper (us ++ vs)) (hclose : closesWord (flatten us) = true) :
    opensWord (flatten vs) = false := by
  induction us with
  | nil => cases hclose
  | cons r us ih =>
    cases us with
    | nil =>
      cases r with
      | other c => simp [closesWord, flatten, Run.text, h.1] at hclose
      | word w => exact h.2.1
    | cons r' us =>
      have hrest : Proper (r' :: us ++ vs) := Proper.tail h
      refine ih hrest ?_
      have hne : flatten (r' :: us) ≠ [] := by
        rw [flatten_cons]
        exact List.append_ne_nil_of_left_ne_nil hrest.text_ne_nil _
      rwa [flatten_cons, closesWord_append hne] at hclose

theorem exists_runs_of_ne_nil (h : t ≠ []) : ∃ r rs, runs t = r :: rs := by
  refine List.exists_cons_of_ne_nil fun hnil => h ?_
  rw [← flatten_runs t, hnil]
  rfl

/-- The runs come next if the text does, up to the end of a word. -/
theorem runs_isPrefix_iff (hclose : closesWord w = true) :
    runs w <+: runs t ↔ ∃ r, t = w ++ r ∧ opensWord r = false := by
  constructor
  · rintro ⟨rs, hrs⟩
    refine ⟨flatten rs, ?_, ?_⟩
    · rw [← flatten_runs t, ← hrs, flatten_append, flatten_runs]
    · refine Proper.opensWord_right (hrs ▸ proper_runs t) ?_
      rwa [flatten_runs]
  · rintro ⟨r, rfl, hr⟩
    rw [runs_append hr]
    exact List.prefix_append _ _

/-- The runs outside of what is taken, and the runs that are taken at a time. -/
def segments (take : List Run → Nat) : List Run → List (Run ⊕ List Run)
  | [] => []
  | r :: rs =>
    match take (r :: rs) with
    | 0 => .inl r :: segments take rs
    | n + 1 => .inr (r :: rs.take n) :: segments take (rs.drop n)
termination_by rs => rs.length
decreasing_by
  · simp
  · simp only [List.length_drop, List.length_cons]
    omega

theorem segments_nil (take : List Run → Nat) : segments take [] = [] := by
  rw [segments]

theorem segments_kept {r : Run} (h : take (r :: rs) = 0) :
    segments take (r :: rs) = .inl r :: segments take rs := by
  rw [segments, h]

theorem segments_taken (hne : us ≠ []) (h : take (us ++ vs) = us.length) :
    segments take (us ++ vs) = .inr us :: segments take vs := by
  obtain ⟨r, us, rfl⟩ := List.exists_cons_of_ne_nil hne
  rw [List.cons_append] at h ⊢
  rw [segments, h]
  simp only [List.length_cons, List.take_left, List.drop_left]

/-- An induction along the segments. -/
theorem segments_induction {motive : List Run → Prop} (hle : ∀ rs, take rs ≤ rs.length)
    (nil : motive []) (kept : ∀ r rs, take (r :: rs) = 0 → motive rs → motive (r :: rs))
    (taken : ∀ us vs, us ≠ [] → take (us ++ vs) = us.length → motive vs → motive (us ++ vs))
    (rs : List Run) : motive rs := by
  induction hn : rs.length using Nat.strongRecOn generalizing rs with
  | ind n ih =>
  subst hn
  cases rs with
  | nil => exact nil
  | cons r rs =>
    cases htake : take (r :: rs) with
    | zero => exact kept r rs htake (ih _ (by simp) rs rfl)
    | succ n =>
      have hcut := List.take_append_drop (n + 1) (r :: rs)
      have hlen : ((r :: rs).take (n + 1)).length = n + 1 :=
        List.length_take_of_le (htake ▸ hle (r :: rs))
      have hne : (r :: rs).take (n + 1) ≠ [] := List.cons_ne_nil _ _
      have hrest := taken _ ((r :: rs).drop (n + 1)) hne (by rw [hcut, hlen, htake])
        (ih _ (by simp only [List.length_drop, List.length_cons]; omega) _ rfl)
      rwa [hcut] at hrest

/-- What a search finds in a segment. -/
def contents : Run ⊕ List Run → List (Char ⊕ Text)
  | .inl r => r.text.map .inl
  | .inr rs => [.inr (flatten rs)]

/-! ## Searching -/

/-- The pattern takes whole runs, as many as `take` says of those that come next. -/
structure TakesRuns (p : Pattern) (take : List Run → Nat) : Prop where
  nil : take [] = 0
  /-- Within a word nothing is found. -/
  inside : ∀ {b c : Char} {start left : Nat} {t : Text}, isWord b = true → isWord c = true →
    p.here (some b) start left (c :: t) = none
  none : ∀ {b : Option Char} {start : Nat} {t : Text},
    (b.any isWord = true → opensWord t = false) → take (runs t) = 0 →
      p.here b start t.length t = none
  some : ∀ {b : Option Char} {start : Nat} {us : List Run} {t : Text},
    (b.any isWord = true → opensWord t = false) → us ≠ [] → us <+: runs t →
      take (runs t) = us.length → ∃ m, p.here b start t.length t = some m ∧ m.text = flatten us
  le : ∀ rs, take rs ≤ rs.length

theorem content_piecesFrom_skip (p : Pattern) (u t : Text) (b : Option Char) (start : Nat) :
    p.piecesFrom b u.length start (u ++ t).length (u ++ t) =
      p.piecesFrom (u.getLast?.or b) 0 (start + u.length) t.length t := by
  induction u generalizing b start with
  | nil => rfl
  | cons c u ih =>
    simp only [List.cons_append, List.length_cons, piecesFrom, Nat.add_sub_cancel]
    rw [ih, getLast?_or_cons, Nat.add_assoc, Nat.add_comm 1]

/-- Within a word nothing is found once a character of it has been passed. -/
theorem TakesRuns.piecesFrom_inside (h : TakesRuns p take) (hu : ∀ c ∈ u, isWord c = true)
    {b : Char} (hb : isWord b = true) (t : Text) (start : Nat) :
    p.piecesFrom (.some b) 0 start (u ++ t).length (u ++ t) =
      u.map .kept ++
        p.piecesFrom (u.getLast?.or (.some b)) 0 (start + u.length) t.length t := by
  induction u generalizing b start with
  | nil => rfl
  | cons c u ih =>
    have hc : isWord c = true := hu c List.mem_cons_self
    simp only [List.cons_append, List.length_cons, piecesFrom, List.map_cons]
    rw [h.inside hb hc]
    simp only [Nat.add_sub_cancel]
    rw [ih (fun d hd => hu d (List.mem_cons_of_mem _ hd)) hc, getLast?_or_cons, Nat.add_assoc,
      Nat.add_comm 1]

theorem TakesRuns.contents_piecesFrom (h : TakesRuns p take) (t : Text) (b : Option Char)
    (start : Nat) (hb : b.any isWord = true → opensWord t = false) :
    (p.piecesFrom b 0 start t.length t).map Piece.content =
      (segments take (runs t)).flatMap contents := by
  induction hn : t.length using Nat.strongRecOn generalizing t b start with
  | ind n ih =>
  subst hn
  cases htake : take (runs t) with
  | zero =>
    have hhere : p.here b start t.length t = .none := h.none hb htake
    cases t using runs_induction with
    | nil => simp [piecesFrom, runs, segments_nil, show p.here b start 0 [] = .none from hhere]
    | other c t hc =>
      rw [runs_other hc] at htake
      simp only [runs_other hc, segments_kept htake, List.flatMap_cons, List.length_cons,
        piecesFrom]
      rw [List.length_cons] at hhere
      rw [hhere]
      simp only [List.map_cons, Nat.add_sub_cancel]
      rw [ih _ (by simp) t (.some c) (start + 1) (by simp [hc]) rfl]
      rfl
    | word w t hw ht =>
      rw [runs_word hw ht] at htake
      rw [runs_word hw ht, segments_kept htake, List.flatMap_cons]
      obtain ⟨c, u, rfl⟩ := List.exists_cons_of_ne_nil hw.1
      have hword := List.forall_mem_cons.1 hw.2
      simp only [List.cons_append, List.length_cons, piecesFrom] at hhere ⊢
      rw [hhere]
      simp only [Nat.add_sub_cancel, List.map_cons]
      rw [h.piecesFrom_inside hword.2 hword.1, List.map_append,
        ih _ (by simp only [List.length_cons, List.length_append]; omega) t _ _ (fun _ => ht) rfl]
      simp [contents, Run.text, Piece.content, Function.comp_def]
  | succ n =>
    obtain ⟨us, vs, hruns, hlen⟩ : ∃ us vs, runs t = us ++ vs ∧ us.length = n + 1 :=
      ⟨_, _, (List.take_append_drop (n + 1) (runs t)).symm,
        List.length_take_of_le (htake ▸ h.le _)⟩
    have hne : us ≠ [] := List.ne_nil_of_length_eq_add_one hlen
    obtain ⟨m, hhere, hm⟩ : ∃ m, p.here b start t.length t = .some m ∧ m.text = flatten us :=
      h.some hb hne ⟨vs, hruns.symm⟩ (htake.trans hlen.symm)
    have hproper : Proper (us ++ vs) := hruns ▸ proper_runs t
    obtain ⟨v, hv⟩ : ∃ v, flatten vs = v := ⟨_, rfl⟩
    have ht : t = flatten us ++ v := by rw [← hv, ← flatten_append, ← hruns, flatten_runs]
    obtain ⟨c, u, hu⟩ : ∃ c u, flatten us = c :: u := by
      refine List.exists_cons_of_ne_nil ?_
      obtain ⟨r, us, rfl⟩ := List.exists_cons_of_ne_nil hne
      exact List.append_ne_nil_of_left_ne_nil hproper.text_ne_nil _
    have hshorter : v.length < t.length := by
      rw [ht, hu, List.cons_append, List.length_cons, List.length_append]
      omega
    have hclose : (u.getLast?.or (.some c)).any isWord = true → opensWord v = false := by
      intro hlast
      rw [getLast?_or_cons, Option.or_none, ← hu] at hlast
      exact hv ▸ hproper.opensWord_right hlast
    rw [hruns, segments_taken hne (hruns ▸ htake.trans hlen.symm), List.flatMap_cons]
    rw [hu] at hm
    rw [ht, hu] at hhere ⊢
    simp only [List.cons_append, List.length_cons, piecesFrom] at hhere ⊢
    rw [hhere]
    simp only [hm, List.length_cons, Nat.add_sub_cancel, List.map_cons]
    rw [content_piecesFrom_skip, ih _ hshorter v _ _ hclose rfl, ← hv,
      runs_flatten hproper.right]
    simp [contents, Piece.content, hm, hu]

theorem contents_pieces_of_takesRuns (h : TakesRuns p take) (t : Text) :
    (p.pieces t).map Piece.content = (segments take (runs t)).flatMap contents :=
  h.contents_piecesFrom t none 0 (by simp)

/-! ## Whole words -/

/-- Takes given runs. -/
def occurrence (us rs : List Run) : Nat := if us <+: rs then us.length else 0

theorem occurrence_of_isPrefix (h : us <+: rs) : occurrence us rs = us.length := if_pos h

theorem occurrence_of_not_isPrefix (h : ¬ us <+: rs) : occurrence us rs = 0 := if_neg h

theorem eq_of_occurrence_eq_length (h : us ≠ []) (hlen : occurrence rs (us ++ vs) = us.length) :
    us = rs := by
  have hoccurs : rs <+: us ++ vs := by
    by_contra hnot
    rw [occurrence_of_not_isPrefix hnot] at hlen
    exact h (List.eq_nil_of_length_eq_zero hlen.symm)
  rw [occurrence_of_isPrefix hoccurs] at hlen
  exact (List.prefix_of_prefix_length_le (List.prefix_append us vs) hoccurs hlen.ge).eq_of_length
    hlen.symm

theorem occurrence_le (us rs : List Run) : occurrence us rs ≤ rs.length := by
  unfold occurrence
  split
  · rename_i h
    exact h.length_le
  · exact Nat.zero_le _

/-- A word that begins and ends with word characters, whatever stands in between, is found where
its runs are. -/
theorem takesRuns_wholeWord (hopen : opensWord w = true) (hclose : closesWord w = true) :
    TakesRuns (wholeWord w) (occurrence (runs w)) := by
  have hne : w ≠ [] := ne_nil_of_opensWord hopen
  have hruns : runs w ≠ [] := by
    obtain ⟨r, rs, hrs⟩ := exists_runs_of_ne_nil hne
    exact hrs ▸ List.cons_ne_nil r rs
  refine ⟨?_, ?_, ?_, ?_, occurrence_le _⟩
  · exact occurrence_of_not_isPrefix fun h => hruns (List.prefix_nil.1 h)
  · intro b c start left t hb hc
    exact here_wholeWord_of_not_edge (by simp [hb, hc])
  · intro b start t hb htake
    by_cases hp : w <+: t
    · obtain ⟨r, rfl⟩ := hp
      by_cases hr : opensWord r = true
      · exact here_wholeWord_longer hclose hr
      · -- then the runs of the word come next
        rw [occurrence_of_isPrefix ((runs_isPrefix_iff hclose).2 ⟨r, rfl, Bool.eq_false_iff.2 hr⟩)]
          at htake
        exact absurd (List.eq_nil_of_length_eq_zero htake) hruns
    · exact here_wholeWord_of_not_prefix hp
  · intro b start us t hb hus hpre htake
    obtain ⟨vs, hvs⟩ := hpre
    obtain rfl : us = runs w := eq_of_occurrence_eq_length hus (hvs.symm ▸ htake)
    have hoccurs : runs w <+: runs t := ⟨vs, hvs⟩
    obtain ⟨r, rfl, hr⟩ := (runs_isPrefix_iff hclose).1 hoccurs
    have hb' : b.any isWord = false := by
      refine Bool.eq_false_iff.2 fun h => ?_
      have hopens := hb h
      rw [opensWord_append hne, hopen] at hopens
      cases hopens
    exact ⟨_, here_wholeWord_self hclose hopen hb' hr start, (flatten_runs w).symm⟩

theorem isSome_searchFrom_iff (p : Pattern) (t : Text) (b : Option Char) (start : Nat) :
    (p.searchFrom b start t.length t).isSome ↔
      ∃ m, Piece.found m ∈ p.piecesFrom b 0 start t.length t := by
  induction t generalizing b start with
  | nil =>
    rw [searchFrom, piecesFrom]
    cases p.here b start 0 [] <;> simp
  | cons c t ih =>
    simp only [searchFrom, piecesFrom, List.length_cons, Nat.add_sub_cancel]
    cases p.here b start (t.length + 1) (c :: t) with
    | none => simp [ih]
    | some m =>
      refine iff_of_true rfl ⟨m, ?_⟩
      dsimp only
      split <;> exact List.mem_cons_self

/-- Something is found if and only if some piece is a match. -/
theorem isSome_search_iff {p : Pattern} : (p.search t).isSome ↔
    ∃ u, .inr u ∈ (p.pieces t).map Piece.content := by
  refine (isSome_searchFrom_iff p t none 0).trans ?_
  simp only [List.mem_map]
  constructor
  · rintro ⟨m, hm⟩
    exact ⟨m.text, _, hm, rfl⟩
  · rintro ⟨u, p, hp, hu⟩
    cases p with
    | kept c => cases hu
    | found m => exact ⟨m, hp⟩

theorem replaceWord_eq_flatMap (t w new : Text) : t.replaceWord w new =
    (((wholeWord w).pieces t).map Piece.content).flatMap
      (Sum.elim (fun c => [c]) fun _ => new) := by
  rw [replaceWord, substitute, List.flatMap_map]
  congr 1
  funext p
  cases p <;> rfl

/-- All occurrences of a word are replaced. -/
theorem replaceWord_eq_segments (hopen : opensWord w = true) (hclose : closesWord w = true)
    (t new : Text) : t.replaceWord w new =
      (segments (occurrence (runs w)) (runs t)).flatMap (Sum.elim Run.text fun _ => new) := by
  rw [replaceWord_eq_flatMap, contents_pieces_of_takesRuns (takesRuns_wholeWord hopen hclose),
    List.flatMap_assoc]
  congr 1
  funext s
  cases s with
  | inl r => simp [contents, List.flatMap_map]
  | inr rs => simp [contents]

theorem containsWord_iff_segments (hopen : opensWord w = true) (hclose : closesWord w = true) :
    t.containsWord w = true ↔ ∃ us, .inr us ∈ segments (occurrence (runs w)) (runs t) := by
  rw [containsWord, isSome_search_iff,
    contents_pieces_of_takesRuns (takesRuns_wholeWord hopen hclose)]
  simp only [List.mem_flatMap]
  constructor
  · rintro ⟨u, s, hs, hu⟩
    cases s with
    | inl r => simp [contents] at hu
    | inr us => exact ⟨us, hs⟩
  · rintro ⟨us, hus⟩
    exact ⟨flatten us, _, hus, List.mem_singleton.2 rfl⟩

/-- Where a word does not occur nothing is replaced. -/
theorem replaceWord_of_not_containsWord (hopen : opensWord w = true)
    (hclose : closesWord w = true) (h : t.containsWord w = false) (new : Text) :
    t.replaceWord w new = t := by
  have hnone : ∀ us, .inr us ∉ segments (occurrence (runs w)) (runs t) := by
    intro us hus
    rw [(containsWord_iff_segments hopen hclose).2 ⟨us, hus⟩] at h
    cases h
  have hkept : ∀ rs, (∀ us, .inr us ∉ segments (occurrence (runs w)) rs) →
      (segments (occurrence (runs w)) rs).flatMap (Sum.elim Run.text fun _ => new) =
        flatten rs := by
    intro rs
    induction rs using segments_induction (occurrence_le (runs w)) with
    | nil =>
      intro _
      rw [segments_nil]
      rfl
    | kept r rs htake ih =>
      intro hnone
      rw [segments_kept htake] at hnone ⊢
      rw [List.flatMap_cons, ih fun us hus => hnone us (List.mem_cons_of_mem _ hus)]
      rfl
    | taken us vs hne htake _ =>
      intro hnone
      rw [segments_taken hne htake] at hnone
      exact absurd List.mem_cons_self (hnone us)
  rw [replaceWord_eq_segments hopen hclose, hkept _ hnone, flatten_runs]

/-- The word itself is replaced as a whole. -/
theorem replaceWord_self (hopen : opensWord w = true) (hclose : closesWord w = true)
    (new : Text) : w.replaceWord w new = new := by
  obtain ⟨r, rs, hr⟩ := exists_runs_of_ne_nil (ne_nil_of_opensWord hopen)
  have htake : occurrence (runs w) (runs w ++ []) = (runs w).length :=
    occurrence_of_isPrefix (List.prefix_append _ _)
  have hcut := segments_taken (hr ▸ List.cons_ne_nil r rs) htake
  rw [List.append_nil] at hcut
  rw [replaceWord_eq_segments hopen hclose, hcut, segments_nil]
  simp

end Text

end ShaderLink
