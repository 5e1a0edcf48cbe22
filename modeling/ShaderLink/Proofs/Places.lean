import ShaderLink.Proofs.Aliases

/-!
# The places of uses

A text is cut into uses of a namespace and what stands between them (`places`, `parts`).  The places
of uses stay apart, whatever is written in them (`Spread.map`), and so replacing uses in a text
means replacing them in each place by itself (`applyAliases_eq`).
-/

namespace ShaderLink.Namespaces

open Text Pattern

/-- No use goes on here: neither a word comes next nor a dot with a word behind it. -/
def Ends (t : Text) : Prop := opensWord t = false ∧ ∀ u, t = '.' :: u → opensWord u = false

section Spread

variable {name use t : Text} {us : List Text} {T : List (Run ⊕ Text)} {f : Text → Text}

/-- The text of runs and of texts that stand in the places of uses. -/
def written (T : List (Run ⊕ Text)) : Text := T.flatMap (Sum.elim Run.text id)

@[simp] theorem written_nil : written [] = [] := rfl

@[simp] theorem written_inl (r : Run) (T : List (Run ⊕ Text)) :
    written (.inl r :: T) = r.text ++ written T := rfl

@[simp] theorem written_inr (x : Text) (T : List (Run ⊕ Text)) :
    written (.inr x :: T) = x ++ written T := rfl

/-- Words stand apart, and what stands in the place of a use begins and ends with words.  Uses go on
neither behind the places nor behind the name where it stands by itself. -/
def Spread (name : Text) : List (Run ⊕ Text) → Prop
  | [] => True
  | .inl (.other c) :: T => isWord c = false ∧ Spread name T
  | .inl (.word w) :: T => IsIdentifier w ∧ opensWord (written T) = false ∧
      (w = name → Ends (written T)) ∧ Spread name T
  | .inr x :: T => opensWord x = true ∧ closesWord x = true ∧ Ends (written T) ∧ Spread name T

theorem Spread.opensWord_written_map (h : Spread name T)
    (hf : ∀ x, .inr x ∈ T → opensWord (f x) = true) :
    opensWord (written (T.map (Sum.map id f))) = opensWord (written T) := by
  cases T with
  | nil => rfl
  | cons p T =>
    cases p with
    | inl r =>
      have hne : r.text ≠ [] := by
        cases r with
        | other c => exact List.cons_ne_nil c []
        | word w => exact h.1.1
      exact (opensWord_append hne _).trans (opensWord_append hne _).symm
    | inr x =>
      have hx := hf x List.mem_cons_self
      refine ((opensWord_append (ne_nil_of_opensWord hx) _).trans hx).trans ?_
      exact ((opensWord_append (ne_nil_of_opensWord h.1) _).trans h.1).symm

theorem Spread.ends_written_map (h : Spread name T)
    (hf : ∀ x, .inr x ∈ T → opensWord (f x) = true) (hends : Ends (written T)) :
    Ends (written (T.map (Sum.map id f))) := by
  refine ⟨(h.opensWord_written_map hf).trans hends.1, fun u hu => ?_⟩
  cases T with
  | nil => cases hu
  | cons p T =>
    have hf' : ∀ x, .inr x ∈ T → opensWord (f x) = true :=
      fun x hx => hf x (List.mem_cons_of_mem _ hx)
    match p with
    | .inl (.other c) =>
      obtain ⟨rfl, rfl⟩ := List.cons.inj hu
      exact (h.2.opensWord_written_map hf').trans (hends.2 _ rfl)
    | .inl (.word w) =>
      have hopen := hends.1
      rw [written_inl, Run.text, h.1.opensWord] at hopen
      cases hopen
    | .inr x =>
      have hopen := hends.1
      rw [written_inr, opensWord_append (ne_nil_of_opensWord h.1), h.1] at hopen
      cases hopen

theorem Spread.map (h : Spread name T)
    (hf : ∀ x, .inr x ∈ T → opensWord (f x) = true ∧ closesWord (f x) = true) :
    Spread name (T.map (Sum.map id f)) := by
  induction T with
  | nil => trivial
  | cons p T ih =>
    have hf' : ∀ x, .inr x ∈ T → opensWord (f x) = true ∧ closesWord (f x) = true :=
      fun x hx => hf x (List.mem_cons_of_mem _ hx)
    have hopens : ∀ x, .inr x ∈ T → opensWord (f x) = true := fun x hx => (hf' x hx).1
    match p with
    | .inl (.other c) => exact ⟨h.1, ih h.2 hf'⟩
    | .inl (.word w) =>
      exact ⟨h.1, (h.2.2.2.opensWord_written_map hopens).trans h.2.1,
        fun hw => h.2.2.2.ends_written_map hopens (h.2.2.1 hw), ih h.2.2.2 hf'⟩
    | .inr x =>
      have hx := hf x List.mem_cons_self
      exact ⟨hx.1, hx.2, h.2.2.2.ends_written_map hopens h.2.2.1, ih h.2.2.2 hf'⟩

theorem Spread.of_mem (h : Spread name T) {x : Text} (hx : .inr x ∈ T) :
    opensWord x = true ∧ closesWord x = true := by
  induction T with
  | nil => cases hx
  | cons p T ih =>
    match p, h, hx with
    | .inl (.other c), h, hx => exact ih h.2 ((List.mem_cons.1 hx).resolve_left nofun)
    | .inl (.word w), h, hx => exact ih h.2.2.2 ((List.mem_cons.1 hx).resolve_left nofun)
    | .inr y, h, hx =>
      rcases List.mem_cons.1 hx with hx | hx
      · cases hx
        exact ⟨h.1, h.2.1⟩
      · exact ih h.2.2.2 hx

/-- Where uses end no dot with a word behind it comes next. -/
theorem Ends.not_isPrefix (h : Ends t) (ws : List Text) (hws : ws ≠ []) :
    ¬ dottedRuns ws <+: runs t := by
  rintro ⟨rs, hrs⟩
  obtain ⟨w, ws, rfl⟩ := List.exists_cons_of_ne_nil hws
  have hproper := proper_runs t
  rw [← hrs] at hproper
  have ht : t = '.' :: (w ++ flatten (dottedRuns ws ++ rs)) := by
    rw [← flatten_runs t, ← hrs]
    simp [Run.text]
  have hopen := h.2 _ ht
  rw [IsIdentifier.opensWord hproper.2.1] at hopen
  cases hopen

/-- What follows a beginning of a use that ends with a word are further words after dots. -/
theorem exists_dottedRuns_of_append {ws : List Text} {rs vs : List Run} (hne : rs ≠ [])
    (hlast : ∀ c, rs.getLast? ≠ some (.other c)) (w : Text)
    (h : .word w :: dottedRuns ws = rs ++ vs) : ∃ ws', vs = dottedRuns ws' := by
  induction ws generalizing w rs with
  | nil =>
    obtain ⟨r, rs, rfl⟩ := List.exists_cons_of_ne_nil hne
    obtain ⟨-, h⟩ := List.cons.inj h
    exact ⟨[], (List.append_eq_nil_iff.1 h.symm).2⟩
  | cons v ws ih =>
    match rs with
    | [r] => exact ⟨v :: ws, (List.cons.inj h).2.symm⟩
    | [r, r'] =>
      have hr := (List.cons.inj (List.cons.inj h).2).1
      exact absurd (congrArg some hr.symm) (hlast '.')
    | r :: r' :: r'' :: rs =>
      exact ih (List.cons_ne_nil r'' rs) (fun c => by simpa using hlast c) v
        (List.cons.inj (List.cons.inj h).2).2

theorem getLast?_runs (h : closesWord t = true) (c : Char) :
    (runs t).getLast? ≠ some (.other c) := by
  intro hlast
  obtain ⟨rs, hrs⟩ := List.getLast?_eq_some_iff.1 hlast
  have hproper := proper_runs t
  rw [hrs] at hproper
  rw [← flatten_runs t, hrs, flatten_append] at h
  have hc : isWord c = true := (closesWord_append (List.cons_ne_nil c []) _).symm.trans h
  rw [hproper.right.1] at hc
  cases hc

section Replace

variable (hname : IsIdentifier name) (huse : IsUse name use)
include hname huse

/-- A text is searched up to where uses end as if nothing followed. -/
theorem IsUse.segments_append {x : Text} (hx : Text.closesWord x = true) (ht : Ends t) :
    segments (occurrence (runs use)) (runs x ++ runs t) =
      segments (occurrence (runs use)) (runs x) ++ segments (occurrence (runs use)) (runs t) := by
  have hruns : ∀ rs : List Run, (∀ c, rs.getLast? ≠ some (.other c)) →
      segments (occurrence (runs use)) (rs ++ runs t) =
        segments (occurrence (runs use)) rs ++ segments (occurrence (runs use)) (runs t) := by
    intro rs
    induction rs using segments_induction (occurrence_le (runs use)) with
    | nil =>
      intro _
      rw [segments_nil]
      rfl
    | kept r rs htake ih =>
      intro hlast
      have hnot : ¬ runs use <+: r :: rs := by
        intro hpre
        rw [occurrence_of_isPrefix hpre] at htake
        obtain ⟨v, us, hus⟩ := huse.exists_runs hname
        rw [hus] at htake
        cases htake
      have hnot' : ¬ runs use <+: r :: (rs ++ runs t) := by
        intro hpre
        obtain ⟨vs, hvs⟩ := (List.prefix_or_prefix_of_prefix hpre
          (List.prefix_append (r :: rs) (runs t))).resolve_left hnot
        obtain ⟨ws, -, hws, rfl⟩ := huse
        rw [← hvs, ← List.cons_append, List.prefix_append_right_inj] at hpre
        rw [IsUse.runs_eq hname hws] at hvs
        obtain ⟨ws', rfl⟩ :=
          exists_dottedRuns_of_append (List.cons_ne_nil r rs) hlast name hvs.symm
        refine ht.not_isPrefix ws' ?_ hpre
        rintro rfl
        refine hnot ⟨[], ?_⟩
        rw [IsUse.runs_eq hname hws, ← hvs]
        simp
      have hlast' : ∀ c, rs.getLast? ≠ some (.other c) := by
        intro c hc
        refine hlast c ?_
        rw [List.getLast?_cons, hc]
        rfl
      rw [segments_kept htake, List.cons_append,
        segments_kept (occurrence_of_not_isPrefix hnot'), ih hlast', List.cons_append]
    | taken rs vs hne htake ih =>
      intro hlast
      have hrs := eq_of_occurrence_eq_length hne htake
      have htake' : occurrence (runs use) (rs ++ (vs ++ runs t)) = rs.length := by
        rw [hrs]
        exact occurrence_of_isPrefix (List.prefix_append _ _)
      have hlast' : ∀ c, vs.getLast? ≠ some (.other c) := by
        intro c hc
        refine hlast c ?_
        rw [List.getLast?_append, hc]
        rfl
      rw [List.append_assoc, segments_taken hne htake', segments_taken hne htake, ih hlast',
        List.cons_append]
  exact hruns (runs x) (getLast?_runs hx)

/-- A use is replaced in each place by itself. -/
theorem Spread.replaceWord_written (hT : Spread name T) (new : Text) :
    (written T).replaceWord use new =
      written (T.map (Sum.map id fun x => x.replaceWord use new)) := by
  induction T with
  | nil => exact huse.replaceWord_eq hname [] new ▸ by simp [runs, segments_nil]
  | cons p T ih =>
    cases p with
    | inl r =>
      cases r with
      | other c =>
        have hrest := ih hT.2
        rw [huse.replaceWord_eq hname] at hrest ⊢
        rw [written_inl, Run.text, List.singleton_append, runs_other hT.1,
          segments_kept (huse.occurrence_other hname c _), List.flatMap_cons, hrest]
        rfl
      | word w =>
        obtain ⟨hw, hopen, hends, hT⟩ := hT
        have hrest := ih hT
        have hnot : ¬ runs use <+: .word w :: runs (written T) := by
          intro hpre
          obtain ⟨ws, hne, hws, rfl⟩ := huse
          rw [IsUse.runs_eq hname hws] at hpre
          obtain ⟨hhead, htail⟩ := List.cons_prefix_cons.1 hpre
          exact (hends (Run.word.inj hhead).symm).not_isPrefix ws hne htail
        rw [huse.replaceWord_eq hname] at hrest ⊢
        rw [written_inl, Run.text, runs_word hw hopen,
          segments_kept (occurrence_of_not_isPrefix hnot), List.flatMap_cons, hrest]
        rfl
    | inr x =>
      obtain ⟨-, hclose, hends, hT⟩ := hT
      have hrest := ih hT
      rw [huse.replaceWord_eq hname] at hrest ⊢
      rw [written_inr, runs_append hends.1, huse.segments_append hname hclose hends,
        List.flatMap_append, hrest, ← huse.replaceWord_eq hname]
      rfl

end Replace

/-- What the replacements do to a text they do to each place by itself. -/
theorem Spread.applyAliases_written (hname : IsIdentifier name) (hus : ∀ u ∈ us, IsUse name u)
    (hT : Spread name T) :
    applyAliases us (written T) = written (T.map (Sum.map id (applyAliases us))) := by
  induction us generalizing T with
  | nil =>
    have hid : Sum.map id (applyAliases []) = (id : Run ⊕ Text → Run ⊕ Text) := by
      funext p
      cases p <;> rfl
    rw [hid, List.map_id]
    rfl
  | cons u us ih =>
    rw [List.forall_mem_cons] at hus
    have hmap : Spread name (T.map (Sum.map id fun x => x.replaceWord u (aliasOf u))) := by
      refine hT.map fun x hx => ?_
      have hturned := hus.1.turned_replaceWord hname x
      obtain ⟨hopen, hclose⟩ := hT.of_mem hx
      exact ⟨hturned.opensWord_eq.trans hopen, hturned.closesWord hclose⟩
    rw [applyAliases_cons, hT.replaceWord_written hname hus.1, ih hus.2 hmap, List.map_map]
    congr 2
    funext p
    cases p <;> rfl

end Spread

/-! ## The places in a text -/

section Parts

variable {name t u : Text} {us : List Text} {rs : List Run} {ps qs : List (Char ⊕ Text)}

/-- The uses in a text and the runs between them. -/
def places (name t : Text) : List (Run ⊕ Text) :=
  (segments (useLength name) (runs t)).map (Sum.map id flatten)

/-- Writes a text in the place of each use. -/
def write (f : Text → Text) (ps : List (Char ⊕ Text)) : Text :=
  ps.flatMap (Sum.elim (fun c => [c]) f)

@[simp] theorem write_nil (f : Text → Text) : write f [] = [] := rfl

@[simp] theorem write_inl (f : Text → Text) (c : Char) (ps : List (Char ⊕ Text)) :
    write f (.inl c :: ps) = c :: write f ps := rfl

@[simp] theorem write_inr (f : Text → Text) (x : Text) (ps : List (Char ⊕ Text)) :
    write f (.inr x :: ps) = f x ++ write f ps := rfl

theorem write_append (f : Text → Text) (ps qs : List (Char ⊕ Text)) :
    write f (ps ++ qs) = write f ps ++ write f qs := List.flatMap_append

theorem write_map_inl (f : Text → Text) (t : Text) : write f (t.map .inl) = t := by
  induction t with
  | nil => rfl
  | cons c t ih => exact congrArg (c :: ·) ih

/-- The characters of runs, and the texts in the places. -/
def characters (T : List (Run ⊕ Text)) : List (Char ⊕ Text) :=
  T.flatMap (Sum.elim (fun r => r.text.map .inl) fun x => [.inr x])

@[simp] theorem characters_inl (r : Run) (T : List (Run ⊕ Text)) :
    characters (.inl r :: T) = r.text.map .inl ++ characters T := rfl

@[simp] theorem characters_inr (x : Text) (T : List (Run ⊕ Text)) :
    characters (.inr x :: T) = .inr x :: characters T := rfl

theorem write_characters (f : Text → Text) (T : List (Run ⊕ Text)) :
    write f (characters T) = written (T.map (Sum.map id f)) := by
  induction T with
  | nil => rfl
  | cons p T ih =>
    cases p with
    | inl r =>
      rw [characters_inl, write_append, write_map_inl, ih]
      rfl
    | inr x =>
      rw [characters_inr, write_inr, ih]
      rfl

theorem write_id_characters (T : List (Run ⊕ Text)) : write id (characters T) = written T := by
  have hid : Sum.map id id = (id : Run ⊕ Text → Run ⊕ Text) := by
    funext p
    cases p <;> rfl
  rw [write_characters, hid, List.map_id]

theorem parts_eq (hname : IsIdentifier name) (t : Text) :
    parts name t = characters (places name t) := by
  rw [parts, contents_pieces_of_takesRuns (takesRuns_usageForm hname), characters, places,
    List.flatMap_map]
  congr 1
  funext s
  cases s <;> rfl

theorem written_segments (name : Text) (rs : List Run) :
    written ((segments (useLength name) rs).map (Sum.map id flatten)) = flatten rs := by
  induction rs using segments_induction (useLength_le name) with
  | nil =>
    rw [segments_nil]
    rfl
  | kept r rs htake ih =>
    rw [segments_kept htake, List.map_cons]
    exact congrArg (r.text ++ ·) ih
  | taken us vs hne htake ih =>
    rw [segments_taken hne htake, List.map_cons, flatten_append]
    exact congrArg (flatten us ++ ·) ih

theorem written_places (name t : Text) : written (places name t) = t := by
  rw [places, written_segments, flatten_runs]

theorem ends_of_dotWords (hopen : opensWord t = false) (h : dotWords (runs t) = []) : Ends t := by
  refine ⟨hopen, fun u hu => Bool.eq_false_iff.2 fun hu' => ?_⟩
  subst hu
  obtain ⟨r, rs, hr⟩ := exists_runs_of_ne_nil (ne_nil_of_opensWord hu')
  have hproper := proper_runs u
  rw [runs_other (by decide), hr] at h
  rw [hr] at hproper
  cases r with
  | other c =>
    rw [← flatten_runs u, hr] at hu'
    simp [Run.text, hproper.1] at hu'
  | word w => simp [dotWords] at h

/-- Uses are found as far as they go. -/
theorem spread_places (hname : IsIdentifier name) (t : Text) :
    Spread name (places name t) ∧ ∀ u, .inr u ∈ places name t → IsUse name u := by
  have hruns : ∀ rs, Proper rs →
      Spread name ((segments (useLength name) rs).map (Sum.map id flatten)) ∧
        ∀ u, .inr u ∈ (segments (useLength name) rs).map (Sum.map id flatten) →
          IsUse name u := by
    intro rs
    induction rs using segments_induction (useLength_le name) with
    | nil =>
      intro _
      rw [segments_nil]
      exact ⟨trivial, fun _ h => nomatch h⟩
    | kept r rs htake ih =>
      intro hproper
      rw [segments_kept htake, List.map_cons]
      obtain ⟨hspread, huses⟩ := ih (hproper.tail)
      refine ⟨?_, fun u hu => huses u ((List.mem_cons.1 hu).resolve_left nofun)⟩
      have hwritten := written_segments name rs
      cases r with
      | other c => exact ⟨hproper.1, hspread⟩
      | word w =>
        refine ⟨hproper.1, hwritten.symm ▸ hproper.2.1, fun hw => ?_, hspread⟩
        rw [hwritten]
        refine ends_of_dotWords hproper.2.1 ?_
        by_contra hne
        rw [runs_flatten hproper.2.2] at hne
        simp [useLength, hw, hne] at htake
    | taken us vs hne htake ih =>
      intro hproper
      rw [segments_taken hne htake, List.map_cons]
      obtain ⟨hspread, huses⟩ := ih hproper.right
      obtain ⟨xs, hxs, hws, hus⟩ := exists_of_useLength hne (List.prefix_append us vs) htake
      obtain ⟨ys, hys, hstop⟩ := exists_eq_dottedRuns xs
      have hvs : vs = ys := by
        rw [hus, List.cons_append] at hxs
        exact List.append_cancel_left ((List.cons.inj hxs).2.trans hys)
      subst hvs
      have huse : IsUse name (flatten us) := by
        refine ⟨dotWords xs, hws, fun w hw => ?_, ?_⟩
        · refine hproper.isIdentifier (List.mem_append_left _ ?_)
          rw [hus]
          exact List.mem_cons_of_mem _ (List.mem_flatMap.2 ⟨w, hw, by simp⟩)
        · rw [hus, flatten_cons, flatten_dottedRuns]
          rfl
      refine ⟨⟨huse.opensWord hname, huse.closesWord, ?_, hspread⟩, fun u hu => ?_⟩
      · rw [written_segments]
        refine ends_of_dotWords (hproper.opensWord_right huse.closesWord) ?_
        rw [runs_flatten hproper.right, hstop]
      · rcases List.mem_cons.1 hu with hu | hu
        · cases hu
          exact huse
        · exact huses u hu
  exact hruns (runs t) (proper_runs t)

theorem write_id_parts (hname : IsIdentifier name) (t : Text) : write id (parts name t) = t := by
  rw [parts_eq hname, write_id_characters, written_places]

/-- What the replacements do to a text they do to each use in it by itself. -/
theorem applyAliases_eq (hname : IsIdentifier name) (hus : ∀ u ∈ us, IsUse name u) (t : Text) :
    applyAliases us t = write (applyAliases us) (parts name t) := by
  have hspread := (spread_places hname t).1.applyAliases_written hname hus
  rwa [written_places, ← write_characters, ← parts_eq hname] at hspread

theorem isUse_of_mem_parts (hname : IsIdentifier name) (hu : .inr u ∈ parts name t) :
    IsUse name u := by
  refine (spread_places hname t).2 u ?_
  rw [parts_eq hname] at hu
  obtain ⟨p, hp, hu⟩ := List.mem_flatMap.1 hu
  cases p with
  | inl r => simp at hu
  | inr x => exact Sum.inr.inj (List.mem_singleton.1 hu) ▸ hp

theorem isUse_of_mem_usages (hname : IsIdentifier name) : ∀ u ∈ usages name t, IsUse name u :=
  fun _ hu => isUse_of_mem_parts hname (mem_usages.1 hu)

/-- Behind a use in a text none goes on. -/
theorem ends_of_parts_eq (hname : IsIdentifier name) (h : parts name t = ps ++ .inr u :: qs) :
    Ends (write id qs) := by
  have hspread : ∀ (T : List (Run ⊕ Text)) ps, Spread name T →
      characters T = ps ++ .inr u :: qs → Ends (write id qs) := by
    intro T
    induction T with
    | nil =>
      intro ps _ h
      simp [characters] at h
    | cons p T ih =>
      intro ps hT h
      match p, hT, h with
      | .inl r, hT, h =>
        have hT' : Spread name T := by
          cases r with
          | other c => exact hT.2
          | word w => exact hT.2.2.2
        rw [characters_inl] at h
        rcases List.append_eq_append_iff.1 h with ⟨as, -, h⟩ | ⟨as, hr, h⟩
        · exact ih as hT' h
        · cases as with
          | nil => exact ih [] hT' h.symm
          | cons a as =>
            obtain ⟨rfl, -⟩ := List.cons.inj h
            have hmem : .inr u ∈ r.text.map Sum.inl := hr ▸ List.mem_append_right ps
              List.mem_cons_self
            simp at hmem
      | .inr x, hT, h =>
        cases ps with
        | nil =>
          obtain ⟨-, rfl⟩ := List.cons.inj h
          exact write_id_characters T ▸ hT.2.2.1
        | cons q ps => exact ih ps hT.2.2.2 (List.cons.inj h).2
  rw [parts_eq hname] at h
  exact hspread _ ps (spread_places hname t).1 h

end Parts

end ShaderLink.Namespaces
