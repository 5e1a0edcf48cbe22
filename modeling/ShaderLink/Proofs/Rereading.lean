import ShaderLink.Proofs.Passes
import ShaderLink.Proofs.Readings

/-!
# Declarations are read twice

The text of a declaration is found in the code of a module, and later its parts are looked for once
more, in that text alone (`Kind.rereadForm`).
-/

namespace ShaderLink

open Text Pattern Cursor

variable {k k' : Cursor} {done : Cursor → Option Cursor} {c : Char} {t u v w x y z : Text}
  {test : Char → Bool} {gs : List (Nat × Span)}

/-! ## Matching forwards -/

theorem run_lit_after (ht : k.rest = u ++ c :: t)
    (h : done ((k.after (u ++ [c])).withGroups gs) = some k') :
    (lit c).run ((k.after u).withGroups gs) done = some k' := by
  have hrest : ((k.after u).withGroups gs).rest = c :: t := rest_after_of_eq ht
  rw [lit, run_one hrest, after_withGroups, after_after, h]
  exact beq_self_eq_true c

theorem run_textEnd (h : k.rest = []) : textEnd.run k done = done k := by
  show (if k.atTextEnd then done k else none) = _
  unfold Cursor.atTextEnd
  rw [h]
  rfl

/-- A run goes on to the last place that is accepted. -/
theorem run_chars_after (ht : k.rest = u ++ (v ++ t)) (hv : ∀ c ∈ v, test c = true)
    (hfail : ∀ z, z ≠ [] → z <+: t.takeWhile test →
      done ((k.after (u ++ v ++ z)).withGroups gs) = none)
    (h : done ((k.after (u ++ v)).withGroups gs) = some k') :
    (chars test).run ((k.after u).withGroups gs) done = some k' := by
  have hrest : ((k.after u).withGroups gs).rest = v ++ t := rest_after_of_eq ht
  have hafter : ∀ z, ((k.after u).withGroups gs).after z = (k.after (u ++ z)).withGroups gs :=
    fun z => by rw [after_withGroups, after_after]
  rw [run_chars_of_last hrest hv, hafter, h]
  · intro z hz hpre
    rw [hafter, ← List.append_assoc]
    exact hfail z hz hpre
  · rw [hafter, h]
    rfl

theorem run_many1_after (hne : v ≠ []) (ht : k.rest = u ++ (v ++ t)) (hv : ∀ c ∈ v, test c = true)
    (hfail : ∀ z, z ≠ [] → z <+: t.takeWhile test →
      done ((k.after (u ++ v ++ z)).withGroups gs) = none)
    (h : done ((k.after (u ++ v)).withGroups gs) = some k') :
    (many1 (one test)).run ((k.after u).withGroups gs) done = some k' := by
  obtain ⟨c, v, rfl⟩ := List.exists_cons_of_ne_nil hne
  obtain ⟨hc, hv⟩ := List.forall_mem_cons.1 hv
  have hrest : ((k.after u).withGroups gs).rest = c :: (v ++ t) := rest_after_of_eq ht
  have hsplit : u ++ c :: v = u ++ [c] ++ v := by simp
  have hone : (many1 (one test)).run ((k.after u).withGroups gs) done =
      (chars test).run ((k.after (u ++ [c])).withGroups gs) done := by
    show (one test).run _ (fun k₁ => (chars test).run k₁ done) = _
    rw [run_one hrest hc, after_withGroups, after_after]
  rw [hsplit] at hfail h
  rw [hone]
  exact run_chars_after (by simp [ht]) hv hfail h

/-- No block ends behind its last closing character. -/
theorem run_lit_behind (ht : k.rest = u ++ (v ++ c :: t)) (hc : c ∉ t) (hz : z ≠ [])
    (hpre : z <+: (c :: t).takeWhile test) :
    (lit c).run ((k.after (u ++ v ++ z)).withGroups gs) done = none := by
  obtain ⟨r, hr⟩ := hpre.trans (List.takeWhile_prefix test)
  obtain ⟨d, z, rfl⟩ := List.exists_cons_of_ne_nil hz
  obtain ⟨rfl, rfl⟩ := List.cons.inj hr
  have hrest : ((k.after (u ++ v ++ d :: z)).withGroups gs).rest = r :=
    rest_after_of_eq (by simp [ht])
  refine run_lit_of_ne fun r' hr' => hc ?_
  rw [← hrest, hr']
  exact List.mem_append_right z List.mem_cons_self

theorem not_prefix_takeWhile (hz : z ≠ []) (hc : test c = false) :
    ¬ z <+: (c :: t).takeWhile test := by
  rw [List.takeWhile_cons_of_neg (by rw [hc]; exact Bool.false_ne_true)]
  exact fun h => hz (List.prefix_nil.1 h)

theorem noneOf_of_not_mem {s : String} {d : Char} (hs : s.toList = [d]) (h : d ∉ u) :
    ∀ c ∈ u, (!isAmong c s.toList) = true := by
  intro c hc
  have hne : c ≠ d := fun hcd => h (hcd ▸ hc)
  rw [hs]
  simp [isAmong, hne]

/-- What is found when a form takes a whole text. -/
theorem exists_search_of_run {p : Pattern}
    (h : p.run ⟨none, t, t.length, []⟩ some =
      some ((Cursor.after ⟨none, t, t.length, []⟩ t).withGroups gs)) :
    ∃ m, p.search t = some m ∧ m.text = t ∧
      ∀ n, m.group (n + 1) = if n < p.groupCount then rememberedIn gs (n + 1) else [] := by
  have hk : Cursor.Counts ⟨none, t, t.length, []⟩ := rfl
  obtain ⟨m, hm⟩ : ∃ m, p.here none 0 t.length t = some m := ⟨_, by rw [here, h]; rfl⟩
  obtain ⟨k', hrun, -, htext, hgroup⟩ := exists_run_of_here hm
  rw [h] at hrun
  cases hrun
  exact ⟨m, search_eq_of_here hm, htext.trans (text_upTo_after (t := []) hk (by simp)), hgroup⟩

/-- A block that is taken up to the last closing brace, with what is remembered of it. -/
theorem exists_run_block {e : Text} (n : Nat) (gs : List (Nat × Span)) (hk : k.Counts)
    (ht : k.rest = u ++ '\x7b' :: (y ++ '\x7d' :: e)) (he : '\x7d' ∉ e) :
    ∃ s : Span, s.text = y ∧ ∀ {done k'},
      done ((k.after (u ++ '\x7b' :: (y ++ ['\x7d']))).withGroups ((n, s) :: gs)) = some k' →
      (lit '\x7b').run ((k.after u).withGroups gs) (fun k₁ => (many anything).run k₁ fun k₂ =>
        (lit '\x7d').run (k₂.remember n (k₁.upTo k₂)) done) = some k' := by
  let k₁ := (k.after (u ++ ['\x7b'])).withGroups gs
  let s := k₁.upTo ((k.after (u ++ ['\x7b'] ++ y)).withGroups gs)
  have hinside : k.rest = u ++ ['\x7b'] ++ (y ++ '\x7d' :: e) := by simp [ht]
  have hblock : k.rest = u ++ ['\x7b'] ++ y ++ '\x7d' :: e :=
    hinside.trans (List.append_assoc ..).symm
  refine ⟨s, text_upTo_after_after hk hblock, fun {done k'} h => ?_⟩
  refine run_lit_after (t := y ++ '\x7d' :: e) ht ?_
  refine run_chars_after hinside (fun _ _ => rfl)
    (fun z hz hpre => run_lit_behind hinside he hz hpre) ?_
  refine run_lit_after (t := e) (by simp [ht]) ?_
  have hwhole : u ++ ['\x7b'] ++ y ++ ['\x7d'] = u ++ '\x7b' :: (y ++ ['\x7d']) := by simp
  rw [hwhole]
  exact h

/-! ## Functions -/

/-- A word, something behind it up to the first brace, and a block up to the last one. -/
theorem exists_search_functionParts (hw : IsIdentifier w) (hx : x ≠ [])
    (hopen : opensWord x = false) (hbrace : '\x7b' ∉ x)
    (ht : t = w ++ (x ++ '\x7b' :: (y ++ ['\x7d']))) :
    ∃ m, Form.functionParts.search t = some m ∧ m.text = t ∧ m.group 1 = w ∧ m.group 2 = y := by
  let k : Cursor := ⟨none, t, t.length, []⟩
  have hk : k.Counts := rfl
  have hrest : k.rest = w ++ x ++ '\x7b' :: (y ++ ['\x7d']) := ht.trans (List.append_assoc ..).symm
  obtain ⟨s, hs, hblock⟩ :=
    exists_run_block 2 [(1, k.upTo (k.after w))] hk hrest List.not_mem_nil
  have hrun : Form.functionParts.run k some =
      some ((k.after t).withGroups [(2, s), (1, k.upTo (k.after w))]) := by
    show (many1 letter).run ((k.after []).withGroups []) (fun k₁ =>
      (many1 (noneOf "\x7b")).run (k₁.remember 1 (k.upTo k₁)) fun k₂ =>
        (lit '\x7b').run k₂ fun k₃ => (many anything).run k₃ fun k₄ =>
          (lit '\x7d').run (k₄.remember 2 (k₃.upTo k₄)) some) = _
    refine run_many1_after hw.1 ht hw.2 (fun z hz hpre => absurd hpre ?_) ?_
    · obtain ⟨d, x, rfl⟩ := List.exists_cons_of_ne_nil hx
      exact not_prefix_takeWhile hz hopen
    · refine run_many1_after (u := w) hx ht (noneOf_of_not_mem rfl hbrace)
        (fun z hz hpre => absurd hpre (not_prefix_takeWhile hz rfl)) (hblock ?_)
      rw [ht, List.append_assoc]
  obtain ⟨m, hm, htext, hgroup⟩ := exists_search_of_run hrun
  exact ⟨m, hm, htext, (hgroup 0).trans (text_upTo_after hk ht), (hgroup 1).trans hs⟩

/-! ## Structs -/

/-- Something up to the first brace, a block up to the last one, and a semicolon. -/
theorem exists_search_structBody {e : Text} (hbrace : '\x7b' ∉ x) (he : AllBlank e)
    (ht : t = x ++ '\x7b' :: (y ++ '\x7d' :: (e ++ [';']))) :
    ∃ m, Form.structBody.search t = some m ∧ m.text = t ∧ m.group 1 = y := by
  let k : Cursor := ⟨none, t, t.length, []⟩
  have hk : k.Counts := rfl
  have hclose : '\x7d' ∉ e ++ [';'] := by
    simp only [List.mem_append, List.mem_singleton, not_or]
    exact ⟨fun hmem => absurd (he _ hmem) (by decide), by decide⟩
  obtain ⟨s, hs, hblock⟩ := exists_run_block 1 [] hk ht hclose
  have hrun : Form.structBody.run k some = some ((k.after t).withGroups [(1, s)]) := by
    show (many (noneOf "\x7b")).run ((k.after []).withGroups []) (fun k₂ =>
      (lit '\x7b').run k₂ fun k₃ => (many anything).run k₃ fun k₄ =>
        (lit '\x7d').run (k₄.remember 1 (k₃.upTo k₄)) fun k₅ => blanks.run k₅ fun k₆ =>
          (lit ';').run k₆ fun k₇ => textEnd.run k₇ some) = _
    refine run_chars_after (u := []) ht (noneOf_of_not_mem rfl hbrace)
      (fun z hz hpre => absurd hpre (not_prefix_takeWhile hz rfl)) (hblock ?_)
    refine run_chars_after (t := [';']) (by simp [k, ht]) he
      (fun z hz hpre => absurd hpre (not_prefix_takeWhile hz rfl)) ?_
    refine run_lit_after (t := []) (by simp [k, ht]) ?_
    have hwhole : x ++ '\x7b' :: (y ++ ['\x7d']) ++ e ++ [';'] = t := by simp [ht]
    rw [hwhole]
    exact run_textEnd (rest_after_of_eq (List.append_nil t).symm)
  obtain ⟨m, hm, htext, hgroup⟩ := exists_search_of_run hrun
  exact ⟨m, hm, htext, (hgroup 0).trans hs⟩

theorem not_mem_of_isWordOrBlank {d : Char} (hd : isWordOrBlank d = false)
    (h : ∀ c ∈ u, isWordOrBlank c = true) : d ∉ u := by
  intro hmem
  rw [h d hmem] at hd
  cases hd

theorem trim_structText {g n s f s' : Text} :
    (structText g n s f s').trim = structText g n s f s' := by
  have hlast : structText g n s f s' =
      spaced [("struct".toList, g), (n, s)] ++ '\x7b' :: (f ++ '\x7d' :: s') ++ [';'] := by
    simp [structText]
  have hsemicolon : isBlank ';' = false := by decide
  refine trim_eq_self ?_ (hlast ▸ ?_)
  · rintro _ ⟨⟩
    decide
  · exact forall_mem_getLast?_append (List.cons_ne_nil _ _) (by simpa using hsemicolon) _

/-- A struct is read again with the same fields. -/
theorem exists_reread_of_struct {b : Option Char} {start : Nat} {m : Match}
    (h : Form.structForm.here b start t.length t = some m) :
    (m.group 1).trim = m.group 1 ∧ ∃ m', Form.structBody.search (m.group 1) = some m' ∧
      m'.text = m.group 1 ∧ m'.group 1 = m.group 3 := by
  obtain ⟨-, i, g, n, s, f, s', r, -, hg, hn, hs, -, hs', -, -, -, hone, -, hthree⟩ :=
    exists_of_struct h
  have hspaced : Spaced [("struct".toList, g), (n, s)] := spaced_pair (by decide) hg hn hs
  have hbrace : '\x7b' ∉ spaced [("struct".toList, g), (n, s)] :=
    not_mem_of_isWordOrBlank (by decide) hspaced.forall_mem
  rw [hone, hthree]
  exact ⟨trim_structText, exists_search_structBody hbrace hs' rfl⟩

/-! ## Blanks at the ends -/

theorem trim_append_left {b : Text} (hb : AllBlank b) (t : Text) : (b ++ t).trim = t.trim := by
  unfold Text.trim
  rw [List.dropWhile_append_of_pos hb]

theorem trim_append_right {b : Text} (hb : AllBlank b) (t : Text) : (t ++ b).trim = t.trim := by
  have hnil : b.dropWhile isBlank = [] := List.dropWhile_eq_nil_iff.2 hb
  have hrev : ∀ c ∈ b.reverse, isBlank c = true := fun c hc => hb c (List.mem_reverse.1 hc)
  unfold Text.trim
  rw [List.dropWhile_append]
  split
  · rename_i hempty
    rw [hnil, List.isEmpty_iff.1 hempty]
  · rw [List.reverse_append, List.dropWhile_append_of_pos hrev]

theorem Text.Padded.trim_eq {t t' : Text} (h : t.Padded t') : t'.trim = t.trim := by
  obtain ⟨b, b', hb, hb', rfl⟩ := h
  rw [trim_append_right hb', trim_append_left hb]

/-- Blanks at the end can be cut off. -/
theorem exists_blank_end (t : Text) :
    ∃ u b, t = u ++ b ∧ AllBlank b ∧ ∀ c ∈ u.getLast?, isBlank c = false := by
  refine ⟨(t.reverse.dropWhile isBlank).reverse, (t.reverse.takeWhile isBlank).reverse, ?_, ?_, ?_⟩
  · rw [← List.reverse_append, List.takeWhile_append_dropWhile, List.reverse_reverse]
  · exact fun c hc => List.mem_takeWhile_imp (List.mem_reverse.1 hc)
  · intro c hc
    rw [List.getLast?_reverse] at hc
    have hhead := List.head?_dropWhile_not isBlank t.reverse
    rw [hc] at hhead
    simpa using hhead

/-! ## Macros -/

/-- What a macro has before its text. -/
def macroHead (g n p : Text) : Text := "#define".toList ++ (g ++ (n ++ p))

theorem macroHead_eq (g n p : Text) :
    macroHead g n p = '#' :: ("define".toList ++ (g ++ (n ++ p))) := rfl

/-- A macro without a text: nothing but its name, and perhaps parameters. -/
def IsBareMacro (t : Text) : Prop :=
  ∃ g n p, IsLineGap g ∧ IsIdentifier n ∧ IsParameters p ∧ t = macroHead g n p

theorem IsLineGap.allBlank {g : Text} (h : IsLineGap g) : AllBlank g := by
  intro c hc
  rcases h.2 c hc with rfl | rfl <;> decide

theorem macroText_eq (g n p g' c : Text) : macroText g n p g' c = macroHead g n p ++ (g' ++ c) := by
  unfold macroText macroHead
  simp only [List.append_assoc]

section Unique

variable {g g₂ n n₂ p p₂ e e₂ : Text}

theorem opensWord_behind_name (hp : IsParameters p) (he : ∀ c ∈ e.head?, isBlank c = true) :
    ∀ c ∈ (p ++ e).head?, isWord c = false := by
  rcases hp with rfl | ⟨q, -, rfl⟩
  · exact fun c hc => isWord_of_isBlank (he c hc)
  · rintro _ ⟨⟩
    decide

theorem IsParameters.unique (hp : IsParameters p) (hp₂ : IsParameters p₂)
    (he : ∀ c ∈ e.head?, isBlank c = true) (he₂ : ∀ c ∈ e₂.head?, isBlank c = true)
    (h : p ++ e = p₂ ++ e₂) : p = p₂ ∧ e = e₂ := by
  have hopen : ∀ {e q : Text}, (∀ c ∈ e.head?, isBlank c = true) → e ≠ '(' :: q := by
    rintro _ q he rfl
    exact absurd (he '(' rfl) (by decide)
  rcases hp with rfl | ⟨q, hq, rfl⟩ <;> rcases hp₂ with rfl | ⟨q₂, hq₂, rfl⟩
  · exact ⟨rfl, h⟩
  · exact absurd h (hopen he)
  · exact absurd h.symm (hopen he₂)
  · have h : q ++ ')' :: e = q₂ ++ ')' :: e₂ := by simpa using h
    obtain ⟨rfl, htail⟩ := first_unique hq hq₂ h
    exact ⟨rfl, htail⟩

/-- A text begins with the head of a macro in one way only, if blanks or nothing come next. -/
theorem macroHead_unique (hg : IsLineGap g) (hg₂ : IsLineGap g₂) (hn : IsIdentifier n)
    (hn₂ : IsIdentifier n₂) (hp : IsParameters p) (hp₂ : IsParameters p₂)
    (he : ∀ c ∈ e.head?, isBlank c = true) (he₂ : ∀ c ∈ e₂.head?, isBlank c = true)
    (h : macroHead g n p ++ e = macroHead g₂ n₂ p₂ ++ e₂) : n = n₂ ∧ p = p₂ ∧ e = e₂ := by
  have hword : ∀ {n r : Text}, IsIdentifier n → ∀ c ∈ (n ++ r).head?, isBlank c = false := by
    intro n r hn c hc
    obtain ⟨d, n, rfl⟩ := List.exists_cons_of_ne_nil hn.1
    cases hc
    exact isBlank_of_isSized (isSized_of_isWord (hn.2 _ List.mem_cons_self))
  unfold macroHead at h
  simp only [List.append_assoc] at h
  replace h := List.append_cancel_left h
  obtain ⟨-, h⟩ := prefix_unique hg.allBlank hg₂.allBlank (hword hn) (hword hn₂) h
  obtain ⟨hname, h⟩ := prefix_unique hn.2 hn₂.2 (opensWord_behind_name hp he)
    (opensWord_behind_name hp₂ he₂) h
  exact ⟨hname, hp.unique hp₂ he he₂ h⟩

end Unique

section Macros

variable {g n p g' c : Text} {m : Match}

theorem isBlank_ends_macroHead (hn : IsIdentifier n) (hp : IsParameters p) :
    (∀ d ∈ (macroHead g n p).head?, isBlank d = false) ∧
      ∀ d ∈ (macroHead g n p).getLast?, isBlank d = false := by
  refine ⟨?_, ?_⟩
  · rintro _ ⟨⟩
    decide
  · unfold macroHead
    rw [← List.append_assoc]
    rcases hp with rfl | ⟨q, -, rfl⟩
    · rw [List.append_nil]
      exact forall_mem_getLast?_append hn.1
        (fun d hd => isBlank_of_isSized (isSized_of_isWord (hn.2 d hd))) _
    · have hclose : isBlank ')' = false := by decide
      rw [← List.cons_append, ← List.append_assoc, ← List.append_assoc]
      exact forall_mem_getLast?_append (List.cons_ne_nil _ _) (by simpa using hclose) _

theorem trim_macroText_of_blank (hn : IsIdentifier n) (hp : IsParameters p) (hg' : IsLineGap g')
    (hc : AllBlank c) : (macroText g n p g' c).trim = macroHead g n p := by
  have hblank : AllBlank (g' ++ c) := List.forall_mem_append.2 ⟨hg'.allBlank, hc⟩
  obtain ⟨hhead, hlast⟩ := isBlank_ends_macroHead (g := g) hn hp
  rw [macroText_eq, trim_append_right hblank, trim_eq_self hhead hlast]

theorem trim_macroText {u b : Text} (hu : u ≠ []) (hlast : ∀ d ∈ u.getLast?, isBlank d = false)
    (hb : AllBlank b) : (macroText g n p g' (u ++ b)).trim = macroText g n p g' u := by
  have hsplit : macroText g n p g' (u ++ b) = macroText g n p g' u ++ b := by
    unfold macroText
    simp only [List.append_assoc]
  rw [hsplit, trim_append_right hb]
  refine trim_eq_self ?_ ?_
  · rintro _ ⟨⟩
    decide
  · unfold macroText
    intro d hd
    simp only [← List.append_assoc] at hd
    rw [List.getLast?_append, List.getLast?_eq_some_getLast hu, Option.some_or] at hd
    exact hlast d (by rwa [List.getLast?_eq_some_getLast hu])

theorem accepts_parameters (hp : IsParameters p) :
    (optional (group 3 (lit '(' ++ many (noneOf ")") ++ lit ')'))).Accepts p := by
  rcases hp with rfl | ⟨q, hq, rfl⟩
  · exact Or.inr rfl
  · exact Or.inl ⟨'(' :: q, [')'], ⟨['('], q, accepts_lit.2 rfl, noneOf_of_not_mem rfl hq, rfl⟩,
      accepts_lit.2 rfl, rfl⟩

theorem accepts_defineCore (hg : IsLineGap g) (hn : IsIdentifier n) (hp : IsParameters p)
    (hg' : IsLineGap g') (hc : '\n' ∉ c) : Form.defineCore.Accepts (macroText g n p g' c) := by
  have htext : macroText g n p g' c = "#define".toList ++ g ++ n ++ p ++ g' ++ c := by
    unfold macroText
    simp only [List.append_assoc]
  exact ⟨_, c, ⟨_, g', ⟨_, p, ⟨_, n, ⟨_, g, accepts_phrase.2 rfl, accepts_lineGap.2 hg, rfl⟩,
    accepts_identifier.2 hn, rfl⟩, accepts_parameters hp, rfl⟩, accepts_lineGap.2 hg', rfl⟩,
    noneOf_of_not_mem rfl hc, htext⟩

theorem run_lineEnd (h : EndsLine k.rest) : lineEnd.run k done = done k := by
  show (if k.atLineEnd then done k else none) = _
  unfold Cursor.atLineEnd
  rcases h with h | ⟨s, h⟩
  · rw [h]
    rfl
  · rw [h]
    rfl

theorem blind_lineEnd : Blind fun k => lineEnd.run k some := by
  intro k gs _
  show (if k.atLineEnd then some (k.withGroups gs) else none).isSome ↔
    (if k.atLineEnd then some k else none).isSome
  cases k.atLineEnd <;> exact Iff.rfl

/-- The form takes a macro that goes from the beginning of a line to the end of one. -/
theorem isSome_here_macroText {b : Option Char} {r : Text} (start : Nat) (hb : BeginsLine b)
    (hg : IsLineGap g) (hn : IsIdentifier n) (hp : IsParameters p) (hg' : IsLineGap g')
    (hc : '\n' ∉ c) (hr : EndsLine r) (ht : t = macroText g n p g' c ++ r) :
    (Form.defineForm.here b start t.length t).isSome := by
  let k : Cursor := ⟨b, t, t.length, []⟩
  have hk : k.Counts := rfl
  have hrest : k.rest = macroText g n p g' c ++ r := ht
  have hrun : ((many (oneOf " \t") ++ group 1 Form.defineCore).run k fun k₁ =>
      lineEnd.run k₁ some).isSome := by
    refine (isSome_run_iff rfl blind_lineEnd hk).2 ⟨macroText g n p g' c, r, ?_, hrest, ?_⟩
    · exact ⟨[], _, accepts_indent.2 nofun, accepts_defineCore hg hn hp hg' hc, rfl⟩
    · rw [run_lineEnd (by rwa [rest_after_of_eq hrest])]
      rfl
  rcases hb with rfl | rfl <;> exact (Option.isSome_map ..).trans hrun

theorem IsLineGap.isBlank_head (hg' : IsLineGap g') (r : Text) :
    ∀ d ∈ (g' ++ r).head?, isBlank d = true := by
  obtain ⟨d, g', rfl⟩ := List.exists_cons_of_ne_nil hg'.1
  rintro _ ⟨⟩
  exact hg'.allBlank d List.mem_cons_self

theorem IsLineGap.not_mem (hg' : IsLineGap g') : '\n' ∉ g' := by
  intro hmem
  exact absurd (hg'.2 _ hmem) (by decide)

/-- Behind the only place of a character that is the last one there is nothing. -/
theorem nil_of_last {a a' r : Text} {d : Char} (ha : d ∉ a) (h : a ++ [d] = a' ++ d :: r) :
    r = [] := by
  rcases r.eq_nil_or_concat with rfl | ⟨r, e, rfl⟩
  · rfl
  · rw [List.concat_eq_append, ← List.cons_append, ← List.append_assoc] at h
    have hinit : a = a' ++ d :: r := (List.append_inj' h rfl).1
    exact absurd (hinit ▸ List.mem_append_right a' List.mem_cons_self) ha

/-- A macro without a text is not taken as a whole: the blanks behind the name are missing. -/
theorem text_ne_macroHead (hg : IsLineGap g) (hn : IsIdentifier n) (hp : IsParameters p)
    (hm : Form.defineForm.search t = some m) : m.text ≠ macroHead g n p := by
  intro htext
  obtain ⟨b, start, r, hhere⟩ := exists_here_of_search hm
  obtain ⟨-, i, g₂, n₂, p₂, g', c, -, hi, hg₂, hn₂, hp₂, hg', -, -, -, -, htext₂, -⟩ :=
    exists_of_define hhere
  rw [htext₂] at htext
  obtain rfl := hi.eq_nil (by decide) htext.symm
  rw [List.nil_append, macroText_eq] at htext
  obtain ⟨-, -, hnil⟩ := macroHead_unique hg₂ hg hn₂ hn hp₂ hp (hg'.isBlank_head c) (by simp)
    (htext.trans (List.append_nil _).symm)
  exact hg'.1 (List.append_eq_nil_iff.1 hnil).1

theorem IsParameters.trim_eq (hp : IsParameters p) : p.trim = p := by
  rcases hp with rfl | ⟨q, -, rfl⟩
  · rfl
  · refine trim_eq_self ?_ ?_
    · rintro _ ⟨⟩
      decide
    · have hclose : isBlank ')' = false := by decide
      exact forall_mem_getLast?_append (List.cons_ne_nil _ _) (by simpa using hclose) ('(' :: q)

theorem not_mem_define {d : Char} (hg : IsLineGap g) (hn : IsIdentifier n)
    (hd : d ∉ "define".toList) (hblank : isBlank d = false) (hword : isWord d = false) :
    d ∉ "define".toList ++ (g ++ n) := by
  simp only [List.mem_append, not_or]
  refine ⟨hd, fun hmem => ?_, fun hmem => ?_⟩
  · rw [hg.allBlank d hmem] at hblank
    cases hblank
  · rw [hn.2 d hmem] at hword
    cases hword

/-- There is no macro with these parameters in it either, if it has no text. -/
theorem group_ne_of_search_macroHead (hg : IsLineGap g) (hn : IsIdentifier n) (hp : IsParameters p)
    (hm : Form.defineForm.search (macroHead g n p) = some m) : (m.group 3).trim ≠ p.trim := by
  obtain ⟨b, u, v, hcut, hhere⟩ := exists_cut_of_search hm
  obtain ⟨-, i, g₂, n₂, p₂, g', c, r, -, hg₂, hn₂, hp₂, hg', -, rfl, -, -, -, -, -, hthree, -⟩ :=
    exists_of_define hhere
  rw [hthree, hp.trim_eq, hp₂.trim_eq]
  rintro rfl
  have hsplit : macroHead g n p₂ = u ++ i ++ (macroHead g₂ n₂ p₂ ++ (g' ++ (c ++ r))) := by
    rw [hcut, macroText_eq]
    simp only [List.append_assoc]
  have hmore : g' ++ (c ++ r) ≠ [] := fun hnil => hg'.1 (List.append_eq_nil_iff.1 hnil).1
  rcases hp with rfl | ⟨q, hq, rfl⟩
  · -- without parameters there is one hash sign only
    have hfront : u ++ i = [] := by
      by_contra hne
      obtain ⟨d, z, hz⟩ := List.exists_cons_of_ne_nil hne
      rw [hz, macroHead_eq, List.cons_append, List.append_nil] at hsplit
      have htail := (List.cons.inj hsplit).2
      refine not_mem_define (d := '#') hg hn (by decide) (by decide) (by decide) ?_
      rw [htail]
      exact List.mem_append_right z List.mem_cons_self
    rw [hfront, List.nil_append] at hsplit
    obtain ⟨-, -, hnil⟩ := macroHead_unique hg hg₂ hn hn₂ (Or.inl rfl) (Or.inl rfl)
      (by simp) (hg'.isBlank_head (c ++ r)) ((List.append_nil _).trans hsplit)
    exact hmore hnil.symm
  · -- with parameters there is one closing parenthesis only, at the end
    have hclosing : '#' :: ("define".toList ++ (g ++ (n ++ '(' :: q))) ++ [')'] =
        u ++ i ++ '#' :: ("define".toList ++ (g₂ ++ (n₂ ++ '(' :: q))) ++
          ')' :: (g' ++ (c ++ r)) := by
      simpa only [macroHead_eq, List.cons_append, List.append_assoc, List.nil_append] using hsplit
    have hfront := not_mem_define (d := ')') hg hn (by decide) (by decide) (by decide)
    refine hmore (nil_of_last ?_ hclosing)
    simp only [List.mem_cons, List.mem_append, not_or] at hfront ⊢
    exact ⟨by decide, hfront.1, hfront.2.1, hfront.2.2, by decide, hq⟩

/-- A macro with a text is read with the same parts when nothing else is there. -/
theorem exists_search_macroText (hg : IsLineGap g) (hn : IsIdentifier n) (hp : IsParameters p)
    (hg' : IsLineGap g') (hc : '\n' ∉ c) :
    ∃ m, Form.defineForm.search (macroText g n p g' c) = some m ∧ m.text = macroText g n p g' c ∧
      m.group 2 = n ∧ m.group 3 = p ∧ (m.group 4).trim = c.trim := by
  obtain ⟨m, hhere⟩ := Option.isSome_iff_exists.1
    (isSome_here_macroText 0 (Or.inl rfl) hg hn hp hg' hc (Or.inl rfl)
      (List.append_nil _).symm)
  obtain ⟨-, i, g₂, n₂, p₂, g₂', c₂, r, hi, hg₂, hn₂, hp₂, hg₂', hc₂, ht, hend, -, htext, -, htwo,
    hthree, hfour⟩ := exists_of_define hhere
  obtain rfl := hi.eq_nil (by decide) ht
  rw [List.nil_append] at ht htext
  have hparts : macroHead g n p ++ (g' ++ c) = macroHead g₂ n₂ p₂ ++ (g₂' ++ (c₂ ++ r)) := by
    rw [← macroText_eq, ht, macroText_eq]
    simp only [List.append_assoc]
  obtain ⟨rfl, rfl, htail⟩ := macroHead_unique hg hg₂ hn hn₂ hp hp₂ (hg'.isBlank_head c)
    (hg₂'.isBlank_head _) hparts
  have hline : '\n' ∉ g' ++ c := by
    simp only [List.mem_append, not_or]
    exact ⟨hg'.not_mem, hc⟩
  obtain rfl : r = [] := hend.resolve_right fun ⟨s, hs⟩ => hline (by simp [htail, hs])
  rw [List.append_nil] at ht htail
  refine ⟨m, search_eq_of_here hhere, htext.trans ht.symm, htwo, hthree, ?_⟩
  rw [hfour, ← trim_append_left hg₂'.allBlank c₂, ← htail, trim_append_left hg'.allBlank]

/-- What is left of a macro without blanks at its end is read again with the same parts, if there is
a text.  If there is none, it is not read with these parameters. -/
theorem reread_of_define {b : Option Char} {start : Nat}
    (h : Form.defineForm.here b start t.length t = some m) :
    (¬ IsBareMacro (m.group 1).trim ∧ ∃ m', Form.defineForm.search (m.group 1).trim = some m' ∧
      m'.text = (m.group 1).trim ∧ m'.group 2 = m.group 2 ∧ m'.group 3 = m.group 3 ∧
      (m'.group 4).trim = (m.group 4).trim) ∨
    (IsBareMacro (m.group 1).trim ∧
      ∀ m', Form.defineForm.search (m.group 1).trim = some m' →
        (m'.group 3).trim ≠ (m.group 3).trim) := by
  obtain ⟨-, i, g, n, p, g', c, r, hi, hg, hn, hp, hg', hc, -, -, -, -, hone, htwo, hthree,
    hfour⟩ := exists_of_define h
  obtain ⟨u, b', rfl, hb, hlast⟩ := exists_blank_end c
  rw [hone, htwo, hthree, hfour, trim_append_right hb]
  by_cases hu : u = []
  · rw [hu, List.nil_append, trim_macroText_of_blank hn hp hg' hb]
    exact Or.inr ⟨⟨g, n, p, hg, hn, hp, rfl⟩,
      fun m' hm' => group_ne_of_search_macroHead hg hn hp hm'⟩
  · rw [trim_macroText hu hlast hb]
    have hline : '\n' ∉ u := fun hmem => hc (List.mem_append_left b' hmem)
    obtain ⟨m', hm', htext, hparts⟩ := exists_search_macroText hg hn hp hg' hline
    refine Or.inl ⟨?_, m', hm', htext, hparts⟩
    rintro ⟨g₂, n₂, p₂, hg₂, hn₂, hp₂, hbare⟩
    exact text_ne_macroHead hg₂ hn₂ hp₂ hm' (htext.trans hbare)

end Macros

/-! ## Blocks of functions -/

section Blocks

variable {code front body : Text} {start stop n : Nat}

/-- An open block ends with a closing character. -/
theorem exists_concat_of_closingLength {o : Char} {depth : Nat} (hdepth : 1 ≤ depth)
    (h : closingLength o c depth t = some n) : ∃ v, t.take n = v ++ [c] := by
  have hstep : ∀ {d : Char} {depth : Nat} {t : Text},
      (∀ {n}, closingLength o c depth t = some n → ∃ v, t.take n = v ++ [c]) →
      ∀ {n}, (closingLength o c depth t).map (· + 1) = some n →
        ∃ v, (d :: t).take n = v ++ [c] := by
    intro d depth t ih n h
    obtain ⟨m, hm, rfl⟩ := Option.map_eq_some_iff.1 h
    obtain ⟨v, hv⟩ := ih hm
    exact ⟨d :: v, by rw [List.take_succ_cons, hv, List.cons_append]⟩
  induction t generalizing depth n with
  | nil => cases h
  | cons d t ih =>
    unfold closingLength at h
    split at h
    · exact hstep (ih (Nat.le_add_left 1 depth)) h
    · split at h
      · rename_i hd
        split at h
        · cases h
          exact ⟨[], by rw [hd]; rfl⟩
        · exact hstep (ih (by omega)) h
      · exact hstep (ih hdepth) h

/-- What a function takes goes from its head over the first brace to the end of the block. -/
theorem exists_block_of_closingIndex (h : code.closingIndex '\x7b' '\x7d' start = .ok stop) :
    ∃ front body, (code.take stop).drop start = front ++ '\x7b' :: (body ++ ['\x7d']) ∧
      '\x7b' ∉ front := by
  unfold Text.closingIndex at h
  rw [Text.offset_natCast] at h
  simp only at h
  split at h
  · cases h
  · rename_i i hi
    split at h
    · cases h
    · rename_i n hn
      cases h
      obtain ⟨hlt, hbrace, hfirst⟩ := List.findIdx?_eq_some_iff_getElem.1 hi
      have hdrop : code.drop (start + i) = '\x7b' :: (code.drop start).drop (i + 1) := by
        rw [← List.drop_drop, List.drop_eq_getElem_cons hlt, beq_iff_eq.1 hbrace]
      rw [hdrop] at hn
      replace hn : (closingLength '\x7b' '\x7d' 1 _).map (· + 1) = some n := hn
      obtain ⟨n, hclosing, rfl⟩ := Option.map_eq_some_iff.1 hn
      obtain ⟨body, hbody⟩ := exists_concat_of_closingLength le_rfl hclosing
      refine ⟨(code.drop start).take i, body, ?_, fun hmem => ?_⟩
      · have hlen : start + i + (n + 1) - start = i + (n + 1) := by omega
        rw [List.drop_take, hlen, List.take_add, List.drop_drop, hdrop, List.take_succ_cons, hbody]
      · obtain ⟨j, hj, hget⟩ := List.mem_take_iff_getElem.1 hmem
        exact hfirst j (by omega) (beq_iff_eq.2 hget)

end Blocks

/-! ## Functions in the code -/

section Functions

variable {code front body : Text} {m : Match} {stop : Nat}

/-- What stands before a place where a character comes for the first time. -/
theorem prefix_of_first {a r : Text} (ha : c ∉ a) (h : a ++ r = u ++ c :: v) : a <+: u := by
  rcases List.append_eq_append_iff.1 h with ⟨b, rfl, -⟩ | ⟨b, rfl, hb⟩
  · exact List.prefix_append a b
  · cases b with
    | nil => simp
    | cons d b =>
      obtain ⟨rfl, -⟩ := List.cons.inj hb
      exact absurd (List.mem_append_right u List.mem_cons_self) ha

/-- A function is read again with the same type and body. -/
theorem exists_reread_of_function {definition : Text}
    (hm : Form.functionHead.search code = some m)
    (hpart : definition = (code.take stop).drop m.start)
    (hblock : definition = front ++ '\x7b' :: (body ++ ['\x7d'])) (hout : '\x7b' ∉ front) :
    definition.trim = definition ∧ ∃ m', Form.functionParts.search definition = some m' ∧
      m'.text = definition ∧ m'.group 1 = m.group 2 ∧ m'.group 2 = body := by
  obtain ⟨b, u, v, rfl, hhere⟩ := exists_cut_of_search hm
  obtain ⟨w, g, w', g', p, s, r, hw, hg, hw', hg', -, -, hv, hstart, htype, -⟩ :=
    exists_of_function hhere
  -- the first brace comes behind the words of the head
  let x := g ++ (w' ++ (g' ++ ['(']))
  have hfront : w ++ x <+: front := by
    have hbrace : '\x7b' ∉ w ++ x := by
      have hspaced : Spaced [(w, g), (w', g')] := spaced_pair hw hg hw' hg'
      have hwords := not_mem_of_isWordOrBlank (d := '\x7b') (by decide) hspaced.forall_mem
      simp only [spaced_cons, spaced_nil, List.append_nil] at hwords
      simp only [x, List.mem_append, List.mem_singleton, not_or] at hwords ⊢
      exact ⟨hwords.1, hwords.2.1, hwords.2.2.1, hwords.2.2.2, by decide⟩
    have hcode : v = w ++ x ++ (p ++ ')' :: (s ++ '\x7b' :: r)) := by
      rw [hv]
      simp [x]
    have htake : definition ++ v.drop (stop - u.length) = v := by
      rw [hpart, hstart, List.drop_take, List.drop_left, List.take_append_drop]
    refine prefix_of_first (r := p ++ ')' :: (s ++ '\x7b' :: r))
      (v := body ++ '\x7d' :: v.drop (stop - u.length)) hbrace ?_
    refine hcode.symm.trans (htake.symm.trans ?_)
    rw [hblock]
    simp
  obtain ⟨y, rfl⟩ := hfront
  rw [List.append_assoc, List.append_assoc, ← List.append_assoc x] at hblock
  have hopen : opensWord (x ++ y) = false := by
    obtain ⟨d, g, rfl⟩ := List.exists_cons_of_ne_nil hg.1
    exact isWord_of_isBlank (hg.2 d List.mem_cons_self)
  have hne : x ++ y ≠ [] := by simp [x]
  have hrest : '\x7b' ∉ x ++ y := fun hmem => hout (by simpa using Or.inr (by simpa using hmem))
  refine ⟨?_, htype ▸ exists_search_functionParts hw hne hopen hrest hblock⟩
  have hclose : isBlank '\x7d' = false := by decide
  have hends : definition = w ++ (x ++ y) ++ '\x7b' :: body ++ ['\x7d'] := by
    rw [hblock]
    simp
  rw [hends]
  refine trim_eq_self ?_
    (forall_mem_getLast?_append (List.cons_ne_nil _ _) (by simpa using hclose) _)
  obtain ⟨d, w, rfl⟩ := List.exists_cons_of_ne_nil hw.1
  rintro _ ⟨⟩
  exact isBlank_of_isSized (isSized_of_isWord (hw.2 d List.mem_cons_self))

end Functions

end ShaderLink
