import Mathlib.Tactic.Conv
import ShaderLink.Proofs.Rereading

/-!
# Commas outside of brackets

A text is cut at the commas that stand outside of all brackets.  What is joined by commas is cut
there again if each part closes its brackets and has its own commas inside of them (`IsPiece`,
`pieces_join`).  Blanks around the whole text go to the pieces at the ends, and are gone when these
are trimmed (`map_trim_pieces_trim`).
-/

namespace ShaderLink

open Text

namespace Text

variable {b t u v x : Text} {d : Int}

/-! ## Trimmed texts -/

theorem AllBlank.not_mem {sep : Char} (hb : b.AllBlank) (hsep : isBlank sep = false) : sep ∉ b := by
  intro hmem
  rw [hb sep hmem] at hsep
  cases hsep

theorem exists_trim_eq (t : Text) : ∃ b b', AllBlank b ∧ AllBlank b' ∧ t = b ++ (t.trim ++ b') := by
  have hfront : AllBlank (t.takeWhile isBlank) := fun c hc => List.mem_takeWhile_imp hc
  have hcut : t = t.takeWhile isBlank ++ t.dropWhile isBlank := List.takeWhile_append_dropWhile.symm
  have hhead : ∀ c ∈ (t.dropWhile isBlank).head?, isBlank c = false := by
    intro c hc
    have hnot := List.head?_dropWhile_not isBlank t
    rw [hc] at hnot
    simpa using hnot
  have htrim : t.trim = trim (t.dropWhile isBlank) := by
    conv_lhs => rw [hcut]
    exact trim_append_left hfront _
  obtain ⟨b', hb', hblank⟩ := exists_trim_append hhead
  exact ⟨_, b', hfront, hblank, by rw [htrim, ← hb', ← hcut]⟩

theorem length_trim_le (t : Text) : t.trim.length ≤ t.length := by
  obtain ⟨b, b', -, -, ht⟩ := exists_trim_eq t
  have hlength := congrArg List.length ht
  simp only [List.length_append] at hlength
  omega

theorem isBlank_head_of_trim (h : t.trim = t) : ∀ c ∈ t.head?, isBlank c = false := by
  cases t with
  | nil => nofun
  | cons c t =>
    rintro _ ⟨⟩
    by_contra hc
    rw [Bool.not_eq_false] at hc
    have hfirst : AllBlank [c] := List.forall_mem_singleton.2 hc
    have htrim : trim t = c :: t := (trim_append_left hfirst t).symm.trans h
    have hle := length_trim_le t
    rw [htrim, List.length_cons] at hle
    omega

theorem isBlank_last_of_trim (h : t.trim = t) : ∀ c ∈ t.getLast?, isBlank c = false := by
  intro c hc
  obtain ⟨u, rfl⟩ := List.getLast?_eq_some_iff.1 hc
  by_contra hblank
  rw [Bool.not_eq_false] at hblank
  have hlast : AllBlank [c] := List.forall_mem_singleton.2 hblank
  have htrim : trim u = u ++ [c] := (trim_append_right hlast u).symm.trans h
  have hle := length_trim_le u
  rw [htrim, List.length_append, List.length_singleton] at hle
  omega

/-! ## Pieces -/

theorem balance_append (t u : Text) : balance (t ++ u) = balance t + balance u := by
  induction t with
  | nil => simp [balance]
  | cons c t ih => simp only [List.cons_append, balance, ih]; omega

theorem nesting_of_isWordOrBlank {c : Char} (h : isWordOrBlank c = true) : nesting c = 0 := by
  have hne : ∀ {d}, isWordOrBlank d = false → c ≠ d := by
    rintro d hd rfl
    rw [h] at hd
    cases hd
  have hopen : ¬ (c = '(' ∨ c = '\x7b') := not_or.2 ⟨hne (by decide), hne (by decide)⟩
  have hclose : ¬ (c = ')' ∨ c = '\x7d') := not_or.2 ⟨hne (by decide), hne (by decide)⟩
  rw [nesting, if_neg hopen, if_neg hclose]

theorem balance_eq_zero (h : ∀ c ∈ t, nesting c = 0) : balance t = 0 := by
  induction t with
  | nil => rfl
  | cons c t ih =>
    obtain ⟨hc, ht⟩ := List.forall_mem_cons.1 h
    rw [balance, hc, ih ht]
    rfl

/-- No commas but between brackets, all of which are closed. -/
structure IsPiece (t : Text) : Prop where
  balance_eq : balance t = 0
  comma_inside : ∀ u w, t = u ++ ',' :: w → balance u ≠ 0

theorem isPiece_of_forall (h : ∀ c ∈ t, nesting c = 0) (hcomma : ',' ∉ t) : IsPiece t where
  balance_eq := balance_eq_zero h
  comma_inside u w htu := absurd (htu ▸ by simp : ',' ∈ t) hcomma

theorem isPiece_of_isWordOrBlank (h : ∀ c ∈ t, isWordOrBlank c = true) : IsPiece t :=
  isPiece_of_forall (fun c hc => nesting_of_isWordOrBlank (h c hc))
    (not_mem_of_isWordOrBlank (by decide) h)

theorem isPiece_of_allBlank (hb : b.AllBlank) : IsPiece b :=
  isPiece_of_isWordOrBlank fun c hc => isWordOrBlank_of_isBlank (hb c hc)

theorem isPiece_of_isIdentifier (ht : IsIdentifier t) : IsPiece t :=
  isPiece_of_isWordOrBlank fun c hc => isWordOrBlank_of_isSized (isSized_of_isWord (ht.2 c hc))

theorem IsPiece.append (ht : IsPiece t) (hu : IsPiece u) : IsPiece (t ++ u) where
  balance_eq := by rw [balance_append, ht.balance_eq, hu.balance_eq]; rfl
  comma_inside v w h := by
    rcases List.append_eq_append_iff.1 h with ⟨a, rfl, ha⟩ | ⟨a, rfl, ha⟩
    · rw [balance_append, ht.balance_eq, Int.zero_add]
      exact hu.comma_inside a w ha
    · cases a with
      | nil => exact absurd rfl (hu.comma_inside [] w ha.symm)
      | cons c a =>
        obtain ⟨rfl, -⟩ := List.cons.inj ha
        exact ht.comma_inside v a rfl

/-! ## Cutting -/

/-- All pieces between commas, when the text begins at a given depth. -/
def pieces (d : Int) (t : Text) : List Text := (commaPieces d t).1 :: (commaPieces d t).2

theorem commaPieces_append (h : ∀ u w, x = u ++ ',' :: w → d + balance u ≠ 0) (t : Text) :
    commaPieces d (x ++ t) = (x ++ (commaPieces (d + balance x) t).1,
      (commaPieces (d + balance x) t).2) := by
  induction x generalizing d with
  | nil => simp [balance]
  | cons c x ih =>
    have hc : ¬ (c = ',' ∧ d = 0) := by
      rintro ⟨rfl, rfl⟩
      exact h [] x rfl rfl
    have hx := ih (d := d + nesting c) fun u w hxu => by
      have hdepth := h (c :: u) w (congrArg (c :: ·) hxu)
      rwa [balance, ← Int.add_assoc] at hdepth
    rw [List.cons_append, commaPieces, if_neg hc, hx, balance, ← Int.add_assoc]
    rfl

theorem IsPiece.pieces_append (hx : IsPiece x) (t : Text) :
    pieces 0 (x ++ t) = (x ++ (commaPieces 0 t).1) :: (commaPieces 0 t).2 := by
  have hdepth : ∀ u w, x = u ++ ',' :: w → 0 + balance u ≠ 0 := fun u w h => by
    rw [Int.zero_add]
    exact hx.comma_inside u w h
  rw [pieces, commaPieces_append hdepth, hx.balance_eq]
  rfl

theorem comma_inside_of_commaPieces {u w : Text} (h : (commaPieces d (u ++ ',' :: w)).2 = []) :
    d + balance u ≠ 0 := by
  induction u generalizing d with
  | nil =>
    rintro hd
    rw [balance, Int.add_zero] at hd
    simp [commaPieces, hd] at h
  | cons c u ih =>
    rw [List.cons_append, commaPieces] at h
    split at h
    · cases h
    · rw [balance, ← Int.add_assoc]
      exact ih h

theorem isPiece_iff : IsPiece t ↔ balance t = 0 ∧ (commaPieces 0 t).2 = [] := by
  constructor
  · intro ht
    have hpieces := ht.pieces_append []
    rw [List.append_nil] at hpieces
    exact ⟨ht.balance_eq, (List.cons.inj hpieces).2⟩
  · rintro ⟨hbalance, hpieces⟩
    refine ⟨hbalance, ?_⟩
    rintro u w rfl
    rw [← Int.zero_add (balance u)]
    exact comma_inside_of_commaPieces hpieces

instance (t : Text) : Decidable (IsPiece t) := decidable_of_iff _ isPiece_iff.symm

/-- What is joined by commas is cut there again. -/
theorem pieces_join {ts : List Text} (hne : ts ≠ []) (h : ∀ t ∈ ts, IsPiece t) :
    pieces 0 (join [','] ts) = ts := by
  induction ts with
  | nil => exact absurd rfl hne
  | cons t ts ih =>
    obtain ⟨ht, hts⟩ := List.forall_mem_cons.1 h
    rw [join_cons, ht.pieces_append]
    split
    · rename_i hnil
      rw [hnil]
      simp [commaPieces]
    · rename_i hmore
      have hcomma : commaPieces 0 ([','] ++ join [','] ts) = ([], pieces 0 (join [','] ts)) := by
        simp [commaPieces, pieces]
      rw [hcomma, ih hmore hts, List.append_nil]

theorem balance_join {ts : List Text} (h : ∀ t ∈ ts, IsPiece t) : balance (join [','] ts) = 0 := by
  induction ts with
  | nil => rfl
  | cons t ts ih =>
    obtain ⟨ht, hts⟩ := List.forall_mem_cons.1 h
    rw [join_cons, balance_append, ht.balance_eq]
    split
    · rfl
    · rw [balance_append, ih hts]
      rfl

/-! ### Blanks at the ends -/

theorem exists_pieces_append (hb : b.AllBlank) (d : Int) (t : Text) :
    ∃ ps p, pieces d t = ps ++ [p] ∧ pieces d (t ++ b) = ps ++ [p ++ b] := by
  induction t generalizing d with
  | nil =>
    have hcomma : ∀ u w, b = u ++ ',' :: w → d + balance u ≠ 0 := fun u w h =>
      absurd (h ▸ by simp : ',' ∈ b) (Text.AllBlank.not_mem hb (by decide))
    have hpieces := commaPieces_append hcomma []
    rw [List.append_nil] at hpieces
    exact ⟨[], [], rfl, by simp [pieces, hpieces, commaPieces]⟩
  | cons c t ih =>
    by_cases hc : c = ',' ∧ d = 0
    · obtain ⟨ps, p, ht, htb⟩ := ih d
      refine ⟨[] :: ps, p, ?_, ?_⟩
      · rw [pieces, commaPieces, if_pos hc]
        exact congrArg ([] :: ·) ht
      · rw [List.cons_append, pieces, commaPieces, if_pos hc]
        exact congrArg ([] :: ·) htb
    · obtain ⟨ps, p, ht, htb⟩ := ih (d + nesting c)
      have hfirst : ∀ t, pieces d (c :: t) = (c :: (commaPieces (d + nesting c) t).1) ::
          (commaPieces (d + nesting c) t).2 := fun t => by rw [pieces, commaPieces, if_neg hc]
      rw [List.cons_append, hfirst, hfirst]
      cases ps with
      | nil =>
        obtain ⟨h₁, h₂⟩ := List.cons.inj ht
        obtain ⟨h₃, h₄⟩ := List.cons.inj htb
        exact ⟨[], c :: p, by rw [h₁, h₂]; rfl, by rw [h₃, h₄]; rfl⟩
      | cons q qs =>
        obtain ⟨h₁, h₂⟩ := List.cons.inj ht
        obtain ⟨h₃, h₄⟩ := List.cons.inj htb
        exact ⟨(c :: q) :: qs, p, by rw [h₁, h₂]; rfl, by rw [h₃, h₄]; rfl⟩

theorem map_trim_pieces_append (hb : b.AllBlank) (t : Text) :
    (pieces 0 (t ++ b)).map trim = (pieces 0 t).map trim := by
  obtain ⟨ps, p, ht, htb⟩ := exists_pieces_append hb 0 t
  rw [ht, htb, List.map_append, List.map_append, List.map_singleton, List.map_singleton,
    trim_append_right hb]

theorem map_trim_pieces_blank_append (hb : b.AllBlank) (t : Text) :
    (pieces 0 (b ++ t)).map trim = (pieces 0 t).map trim := by
  rw [(isPiece_of_allBlank hb).pieces_append, List.map_cons, trim_append_left hb]
  rfl

/-- Blanks around the whole text belong to the pieces. -/
theorem map_trim_pieces_trim (t : Text) : (pieces 0 t.trim).map trim = (pieces 0 t).map trim := by
  obtain ⟨b, b', hb, hb', ht⟩ := exists_trim_eq t
  conv_rhs => rw [ht]
  rw [map_trim_pieces_blank_append hb, map_trim_pieces_append hb']

theorem balance_trim (t : Text) : balance t.trim = balance t := by
  obtain ⟨b, b', hb, hb', ht⟩ := exists_trim_eq t
  conv_rhs => rw [ht]
  rw [balance_append, balance_append, (isPiece_of_allBlank hb).balance_eq,
    (isPiece_of_allBlank hb').balance_eq]
  omega

/-! ## Lists -/

theorem dropEmptyLast_eq {p : Text} {ps : List Text} (h : ∀ q ∈ p :: ps, q ≠ []) :
    dropEmptyLast p ps = p :: ps := by
  induction ps generalizing p with
  | nil => simp [dropEmptyLast, h p List.mem_cons_self]
  | cons q qs ih => rw [dropEmptyLast, ih fun r hr => h r (List.mem_cons_of_mem p hr)]

/-- All parts of a list are read, without the blanks around them. -/
theorem splitCommas_trim_join {ts : List Text} (hne : ts ≠ []) (h : ∀ t ∈ ts, IsPiece t)
    (hsome : ∀ t ∈ ts, t.trim ≠ []) : splitCommas (join [','] ts).trim = .ok (ts.map trim) := by
  have hpieces : (pieces 0 (join [','] ts).trim).map trim = ts.map trim := by
    rw [map_trim_pieces_trim, pieces_join hne h]
  have hfull : ∀ q ∈ pieces 0 (join [','] ts).trim, q ≠ [] := by
    rintro q hq rfl
    obtain ⟨t, ht, htrim⟩ := List.mem_map.1 (hpieces ▸ List.mem_map_of_mem hq)
    exact hsome t ht htrim
  have hbalance : balance (join [','] ts).trim = 0 := by rw [balance_trim, balance_join h]
  unfold splitCommas
  rw [if_pos hbalance, ← hpieces]
  exact congrArg (fun ps => Except.ok (ps.map trim)) (dropEmptyLast_eq hfull)

/-- The trimmed pieces that are not empty. -/
def parts (t : Text) : List Text := ((pieces 0 t).map trim).filter (!·.isEmpty)

theorem parts_append_blank (hb : b.AllBlank) (t : Text) : parts (t ++ b) = parts t :=
  congrArg (List.filter _) (map_trim_pieces_append hb t)

theorem parts_blank_append (hb : b.AllBlank) (t : Text) : parts (b ++ t) = parts t :=
  congrArg (List.filter _) (map_trim_pieces_blank_append hb t)

theorem parts_trim (t : Text) : parts t.trim = parts t :=
  congrArg (List.filter _) (map_trim_pieces_trim t)

theorem filter_dropEmptyLast (p : Text) (ps : List Text) :
    ((dropEmptyLast p ps).map trim).filter (!·.isEmpty) =
      ((p :: ps).map trim).filter (!·.isEmpty) := by
  induction ps generalizing p with
  | nil =>
    cases p with
    | nil => rfl
    | cons c p => rfl
  | cons q qs ih => rw [dropEmptyLast, List.map_cons, List.map_cons, List.filter_cons,
      List.filter_cons, ih]

theorem exists_splitCommas_eq (h : balance t = 0) :
    ∃ ps, splitCommas t = .ok ps ∧ ps.filter (!·.isEmpty) = parts t :=
  ⟨_, if_pos h, filter_dropEmptyLast _ _⟩

end Text

end ShaderLink
