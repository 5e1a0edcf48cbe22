import ShaderLink.Outline
import ShaderLink.Proofs.Commas
import ShaderLink.Proofs.Greedy
import ShaderLink.Proofs.NamedCalls

/-!
# Lists of entries

The entries of an import or an export statement are written one after the other with commas
between them.  Cutting the list at the commas gives the entries back (`entries_listed`), and each of
them is read as it was written, also where a name is one of the words that the notation itself uses
(`search_importText`, `search_exportText`).
-/

namespace ShaderLink

open Text Pattern

variable {form : Pattern} {ws : List Text} {entries : List (Text × Option Text)} {es : List Export}
  {r s t u v w z : Text} {b : Option Char} {start : Nat} {ps : List Piece}

/-! ## Pieces of a text -/

namespace Pattern

/-- Where nothing is found, all characters are kept. -/
theorem piecesFrom_append (h : ∀ z, z <:+ s → z ≠ [] → ∀ b start,
    form.here b start (z ++ r).length (z ++ r) = none) :
    form.piecesFrom b 0 start (s ++ r).length (s ++ r) =
      s.map .kept ++ form.piecesFrom (s.getLast?.or b) 0 (start + s.length) r.length r := by
  induction s generalizing b start with
  | nil => rfl
  | cons c s ih =>
    have hnone := h (c :: s) List.suffix_rfl (List.cons_ne_nil c s) b start
    have hrest : form.piecesFrom (some c) 0 (start + 1) (s ++ r).length (s ++ r) = _ :=
      ih fun z hz => h z (hz.trans (List.suffix_cons c s))
    simp only [List.cons_append, List.length_cons] at hnone ⊢
    simp only [piecesFrom, hnone, Nat.add_sub_cancel, List.map_cons, List.cons_append]
    rw [hrest, getLast?_or_cons, Nat.add_assoc, Nat.add_comm 1]

/-- Characters that are kept stand before the first match. -/
theorem cut_kept {ts : List Text} (h : cut ps = t :: ts) :
    cut (s.map .kept ++ ps) = (s ++ t) :: ts := by
  induction s with
  | nil => exact h
  | cons c s ih =>
    rw [List.map_cons, List.cons_append, cut, ih]
    rfl

end Pattern

/-! ## Lists with commas -/

theorem allBlank_space : AllBlank [' '] := List.forall_mem_singleton.2 isBlank_space

/-- Words with blanks between them, but not around them. -/
structure IsEntry (w : Text) : Prop where
  ne_nil : w ≠ []
  chars : ∀ c ∈ w, isWordOrBlank c = true
  head : ∀ c ∈ w.head?, isBlank c = false
  last : ∀ c ∈ w.getLast?, isBlank c = false

theorem isBlank_of_isWord {c : Char} (hc : isWord c = true) : isBlank c = false :=
  isBlank_of_isSized (isSized_of_isWord hc)

theorem isEntry_of_isIdentifier (hw : IsIdentifier w) : IsEntry w where
  ne_nil := hw.1
  chars c hc := isWordOrBlank_of_isSized (isSized_of_isWord (hw.2 c hc))
  head c hc := isBlank_of_isWord (hw.2 c (List.mem_of_mem_head? hc))
  last c hc := isBlank_of_isWord (hw.2 c (List.mem_of_mem_getLast? hc))

theorem IsEntry.append (hu : IsEntry u) (hv : IsEntry v) (ht : ∀ c ∈ t, isWordOrBlank c = true) :
    IsEntry (u ++ (t ++ v)) where
  ne_nil := List.append_ne_nil_of_left_ne_nil hu.ne_nil _
  chars := List.forall_mem_append.2 ⟨hu.chars, List.forall_mem_append.2 ⟨ht, hv.chars⟩⟩
  head c hc := hu.head c (by rwa [List.head?_append_of_ne_nil _ hu.ne_nil] at hc)
  last c hc := by
    rw [← List.append_assoc, List.getLast?_append_of_ne_nil _ hv.ne_nil] at hc
    exact hv.last c hc

theorem IsEntry.isBlank_head (hw : IsEntry w) (r : Text) :
    ∀ c ∈ (w ++ r).head?, isBlank c = false := by
  rw [List.head?_append_of_ne_nil _ hw.ne_nil]
  exact hw.head

/-- Entries with commas between them. -/
def listed (ws : List Text) : Text := Text.join ", ".toList ws

theorem listed_cons_cons (w w' : Text) (ws : List Text) :
    listed (w :: w' :: ws) = w ++ (", ".toList ++ listed (w' :: ws)) := by
  rw [listed, join_cons, if_neg (List.cons_ne_nil w' ws)]
  rfl

theorem listed_singleton (w : Text) : listed [w] = w := by
  simp [listed, Text.join, List.intercalate]

theorem listed_ne_nil (hws : ∀ w ∈ ws, IsEntry w) (hne : ws ≠ []) : listed ws ≠ [] := by
  cases ws with
  | nil => exact absurd rfl hne
  | cons w ws =>
    have hw := (hws w List.mem_cons_self).ne_nil
    cases ws with
    | nil => rwa [listed_singleton]
    | cons w' ws =>
      rw [listed_cons_cons]
      exact List.append_ne_nil_of_left_ne_nil hw _

theorem isBlank_head_listed (hws : ∀ w ∈ ws, IsEntry w) :
    ∀ c ∈ (listed ws).head?, isBlank c = false := by
  cases ws with
  | nil => nofun
  | cons w ws =>
    have hw := hws w List.mem_cons_self
    cases ws with
    | nil => rw [listed_singleton]; exact hw.head
    | cons w' ws =>
      rw [listed_cons_cons]
      exact hw.isBlank_head _

theorem isBlank_last_listed (hws : ∀ w ∈ ws, IsEntry w) :
    ∀ c ∈ (listed ws).getLast?, isBlank c = false := by
  induction ws with
  | nil => nofun
  | cons w ws ih =>
    obtain ⟨hw, hws⟩ := List.forall_mem_cons.1 hws
    cases ws with
    | nil => rw [listed_singleton]; exact hw.last
    | cons w' ws =>
      rw [listed_cons_cons, ← List.append_assoc,
        List.getLast?_append_of_ne_nil _ (listed_ne_nil hws (List.cons_ne_nil w' ws))]
      exact ih hws

theorem forall_mem_listed (hws : ∀ w ∈ ws, IsEntry w) :
    ∀ c ∈ listed ws, isWordOrBlank c = true ∨ c = ',' := by
  have hspace : isWordOrBlank ' ' = true := by decide
  exact forall_mem_join
    (List.forall_mem_cons.2 ⟨Or.inr rfl, List.forall_mem_singleton.2 (Or.inl hspace)⟩)
    fun w hw c hc => Or.inl ((hws w hw).chars c hc)

theorem not_mem_listed {c : Char} (hc : isWordOrBlank c = false) (hcomma : c ≠ ',')
    (hws : ∀ w ∈ ws, IsEntry w) : c ∉ listed ws := by
  intro hmem
  rcases forall_mem_listed hws c hmem with h | h
  · rw [hc] at h
    cases h
  · exact hcomma h

/-- What does not hold a character stands in front of it. -/
theorem prefix_of_append_eq {d : Char} (hd : d ∉ z) (h : z ++ r = u ++ d :: t) : z <+: u := by
  rcases List.append_eq_append_iff.1 h with ⟨x, rfl, -⟩ | ⟨x, rfl, hx⟩
  · exact List.prefix_append z x
  · cases x with
    | nil => rw [List.append_nil]
    | cons c x =>
      obtain ⟨rfl, -⟩ := List.cons.inj hx
      exact absurd (by simp) hd

/-- Within an entry there is no comma. -/
theorem here_comma_eq_none (hw : IsEntry w) (hz : z <:+ w) (hne : z ≠ []) (b : Option Char)
    (start : Nat) : Statement.comma.here b start (z ++ r).length (z ++ r) = none := by
  refine Option.eq_none_iff_forall_not_mem.2 fun m hm => ?_
  obtain ⟨k', hrun, -⟩ := exists_run_of_here hm
  obtain ⟨_, r', ⟨_, g', ⟨g, _, hg, hc, rfl⟩, -, rfl⟩, hr⟩ := exists_accepted_of_run rfl hrun
  obtain rfl := accepts_lit.1 hc
  have hr : z ++ r = g ++ ',' :: (g' ++ r') := by simpa using hr
  have hcomma : ',' ∉ z := fun hmem => absurd (hw.chars _ (hz.subset hmem)) (by decide)
  -- the comma stands behind the entry, so there are only blanks up to its end
  have hblank : ∀ c ∈ z, isBlank c = true := fun c hc =>
    hg c ((prefix_of_append_eq hcomma hr).subset hc)
  obtain ⟨y, rfl⟩ := hz
  have hlast := hw.last (z.getLast hne) (by
    rw [List.getLast?_append_of_ne_nil _ hne, List.getLast?_eq_some_getLast hne]
    rfl)
  rw [hblank _ (List.getLast_mem hne)] at hlast
  cases hlast

theorem takes_comma {gs : List (Nat × Span)} (hr : ∀ c ∈ r.head?, isBlank c = false) :
    Statement.comma.Takes b gs ", ".toList r gs :=
  ((takes_chars (v := []) (List.forall_mem_nil _) (by rintro _ ⟨⟩; decide)).seq
    (takes_lit (c := ','))).seq (takes_chars allBlank_space hr)

theorem cut_listed (w : Text) (hws : ∀ w' ∈ w :: ws, IsEntry w') (b : Option Char) (start : Nat) :
    cut (Statement.comma.piecesFrom b 0 start (listed (w :: ws)).length (listed (w :: ws))) =
      w :: ws := by
  induction ws generalizing w b start with
  | nil =>
    have hw := hws w List.mem_cons_self
    have hpieces : Statement.comma.piecesFrom b 0 start (w ++ []).length (w ++ []) = _ :=
      piecesFrom_append fun z hz hne b start => here_comma_eq_none hw hz hne b start
    have hend : Statement.comma.piecesFrom (w.getLast?.or b) 0 (start + w.length) 0 [] = [] := rfl
    rw [List.append_nil, List.length_nil, hend] at hpieces
    have hcut : cut (w.map .kept ++ []) = [w ++ []] := cut_kept rfl
    rw [listed_singleton, hpieces, hcut, List.append_nil]
  | cons w' ws ih =>
    obtain ⟨hw, hws⟩ := List.forall_mem_cons.1 hws
    have hhead := isBlank_head_listed hws
    let m : Match := ⟨start + w.length, ", ".toList, []⟩
    have hhere : Statement.comma.here (w.getLast?.or b) (start + w.length)
        (m.text ++ listed (w' :: ws)).length (m.text ++ listed (w' :: ws)) = some m :=
      (takes_comma hhead).here rfl rfl rfl _
    obtain ⟨b', start', hcomma⟩ := exists_piecesFrom_of_here (List.cons_ne_nil _ _) hhere
    have hcut : cut (.found m :: Statement.comma.piecesFrom b' 0 start'
        (listed (w' :: ws)).length (listed (w' :: ws))) = [] :: w' :: ws := by
      rw [cut, ih w' hws]
    rw [listed_cons_cons,
      piecesFrom_append fun z hz hne b start => here_comma_eq_none hw hz hne b start]
    exact hcomma ▸ (cut_kept hcut).trans (by rw [List.append_nil])

theorem trim_listed {b b' : Text} (hws : ∀ w ∈ ws, IsEntry w) (hb : AllBlank b)
    (hb' : AllBlank b') : Text.trim (b ++ (listed ws ++ b')) = listed ws := by
  rw [trim_append_left hb, trim_append_right hb']
  exact trim_eq_self (isBlank_head_listed hws) (isBlank_last_listed hws)

/-- A list of entries with blanks around it is cut into its entries again. -/
theorem entries_listed {b b' : Text} (hne : ws ≠ []) (hws : ∀ w ∈ ws, IsEntry w) (hb : AllBlank b)
    (hb' : AllBlank b') : Statement.entries (b ++ (listed ws ++ b')) = ws := by
  obtain ⟨w, ws, rfl⟩ := List.exists_cons_of_ne_nil hne
  have hsplit : Statement.comma.splitOn (listed (w :: ws)) = w :: ws := cut_listed w hws none 0
  rw [Statement.entries, trim_listed hws hb hb', hsplit, List.filter_eq_self]
  exact fun v hv => by simpa using (hws v hv).ne_nil

/-! ## Entries -/

/-- An entry of an import: a name and perhaps an alias. -/
def importText : Text × Option Text → Text
  | (name, none) => name
  | (name, some newName) => name ++ (" as ".toList ++ newName)

/-- An entry of an export; an internal one says so in front of the name. -/
def Export.text (e : Export) : Text :=
  if e.isInternal then "internal".toList ++ ([' '] ++ e.name) else e.name

/-- A name and perhaps an alias. -/
def IsImportEntry (e : Text × Option Text) : Prop :=
  IsIdentifier e.1 ∧ ∀ newName ∈ e.2, IsIdentifier newName

instance (e : Text × Option Text) : Decidable (IsImportEntry e) :=
  decidable_of_iff (IsIdentifier e.1 ∧ e.2.all (fun w => decide (IsIdentifier w)) = true)
    (by simp [IsImportEntry, Option.all_eq_true])

theorem isEntry_importText {e : Text × Option Text} (he : IsImportEntry e) :
    IsEntry (importText e) := by
  obtain ⟨name, _ | newName⟩ := e
  · exact isEntry_of_isIdentifier he.1
  · have has : ∀ c ∈ " as ".toList, isWordOrBlank c = true := List.all_eq_true.1 (by decide)
    exact (isEntry_of_isIdentifier he.1).append (isEntry_of_isIdentifier (he.2 _ rfl)) has

theorem isEntry_exportText {e : Export} (he : IsIdentifier e.name) : IsEntry e.text := by
  unfold Export.text
  split
  · exact (isEntry_of_isIdentifier (by decide)).append (isEntry_of_isIdentifier he)
      fun c hc => isWordOrBlank_of_isBlank (allBlank_space c hc)
  · exact isEntry_of_isIdentifier he

theorem isEntry_importTexts (h : ∀ e ∈ entries, IsImportEntry e) :
    ∀ w ∈ entries.map importText, IsEntry w :=
  List.forall_mem_map.2 fun e he => isEntry_importText (h e he)

theorem isEntry_exportTexts (h : ∀ e ∈ es, IsIdentifier e.name) :
    ∀ w ∈ es.map Export.text, IsEntry w :=
  List.forall_mem_map.2 fun e he => isEntry_exportText (h e he)

/-- Where a text ends, no alias follows. -/
theorem takes_no_alias {p : Pattern} {gs : List (Nat × Span)} :
    (optional (gap ++ phrase "as" ++ gap ++ p)).Takes b gs [] [] gs := by
  refine takes_optional_nil fun k hk => ?_
  show (one isBlank).run k (fun k₁ => (many blank).run k₁ fun k₂ => (phrase "as").run k₂ fun k₃ =>
    gap.run k₃ fun k₄ => p.run k₄ some) = none
  rw [run, hk]

theorem takes_gap {gs : List (Nat × Span)} (hr : ∀ c ∈ r.head?, isBlank c = false) :
    gap.Takes b gs [' '] r gs :=
  takes_many1 (List.cons_ne_nil _ _) allBlank_space hr

/-- The entry of an import is read as it was written. -/
theorem search_importText {e : Text × Option Text} (he : IsImportEntry e) :
    Statement.importEntry.search (importText e) = some ⟨0, importText e, [some e.1, e.2]⟩ := by
  obtain ⟨name, _ | newName⟩ := e
  · have htakes : Statement.importEntry.Takes none [] name [] _ :=
      takes_textStart.seq ((takes_identifier he.1 rfl).group 1) |>.seq_nil takes_no_alias
        |>.seq_nil takes_textEnd
    exact htakes.search (n := 2) rfl rfl
      (by simp [firstTexts, List.range_succ, List.lookup_cons, Span.text])
  · have hname : IsIdentifier newName := he.2 _ rfl
    have htakes : Statement.importEntry.Takes none []
        (name ++ ([' '] ++ "as".toList ++ [' '] ++ newName)) [] _ :=
      takes_textStart.seq ((takes_identifier he.1 rfl).group 1)
        |>.seq (takes_gap (by rintro _ ⟨⟩; decide)
          |>.seq (takes_phrase "as")
          |>.seq (takes_gap ((isEntry_of_isIdentifier hname).isBlank_head _))
          |>.seq ((takes_identifier hname rfl).group 2)).optional
        |>.seq_nil takes_textEnd
    exact htakes.search (n := 2) rfl rfl
      (by simp [firstTexts, List.range_succ, List.lookup_cons, Span.text])

/-- Nothing comes before a name that stands alone. -/
theorem takes_no_qualifier {gs : List (Nat × Span)} (hr : ∀ c ∈ r, isWord c = true) :
    (optional (group 1 identifier ++ gap)).Takes b gs [] r gs := by
  refine takes_optional_nil fun k hk => Option.eq_none_iff_forall_not_mem.2 fun k' hrun => ?_
  -- a qualifier has a blank behind it, and there are none
  obtain ⟨_, t, ⟨u, g, -, hg, rfl⟩, ht⟩ := exists_accepted_of_run rfl hrun
  obtain ⟨hne, hblank⟩ := accepts_many1_one.1 hg
  obtain ⟨c, g, rfl⟩ := List.exists_cons_of_ne_nil hne
  have hc := hblank c List.mem_cons_self
  have hword : isWord c = true := hr c (by rw [← hk, ht]; simp)
  rw [isBlank_of_isWord hword] at hc
  cases hc

/-- The entry of an export is read as it was written. -/
theorem search_exportText {e : Export} (he : IsIdentifier e.name) :
    Statement.exportEntry.search e.text =
      some ⟨0, e.text, [if e.isInternal then some "internal".toList else none, some e.name,
        none]⟩ := by
  obtain ⟨name, isInternal⟩ := e
  cases isInternal with
  | false =>
    have htakes : Statement.exportEntry.Takes none [] name [] _ :=
      takes_textStart.seq_nil (takes_no_qualifier (by simpa using he.2))
        |>.seq ((takes_identifier he rfl).group 2) |>.seq_nil takes_no_alias
        |>.seq_nil takes_textEnd
    exact htakes.search (n := 3) rfl rfl
      (by simp [firstTexts, List.range_succ, List.lookup_cons, Span.text])
  | true =>
    have htakes : Statement.exportEntry.Takes none [] ("internal".toList ++ [' '] ++ name) [] _ :=
      takes_textStart.seq ((takes_identifier (w := "internal".toList) (by decide) rfl).group 1
          |>.seq (takes_gap ((isEntry_of_isIdentifier he).isBlank_head _))).optional
        |>.seq ((takes_identifier he rfl).group 2) |>.seq_nil takes_no_alias
        |>.seq_nil takes_textEnd
    exact htakes.search (n := 3) rfl rfl
      (by simp [firstTexts, List.range_succ, List.lookup_cons, Span.text])

end ShaderLink
