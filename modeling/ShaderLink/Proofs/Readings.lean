import ShaderLink.Proofs.Accounting
import ShaderLink.Proofs.Phrases

/-!
# What the other forms take

The forms of functions, structs and macros take words with blanks between them, up to a character
that is neither, and remember the name as a whole (`exists_of_function`, `exists_of_struct`,
`exists_of_define`).  Imports and exports begin in the same way (`exists_of_import`,
`exists_of_export`).
-/

namespace ShaderLink

open Text Pattern Cursor

variable {b : Option Char} {start : Nat} {t : Text} {m : Match} {done : Cursor → Option Cursor}
  {k k' : Cursor} {u v w g : Text}

theorem spaced_pair (hw : IsIdentifier w) (hg : IsGap g) {w' g' : Text} (hw' : IsIdentifier w')
    (hg' : g'.AllBlank) : Spaced [(w, g), (w', g')] :=
  ⟨⟨hw.1, fun c hc => isSized_of_isWord (hw.2 c hc)⟩, hg.2, fun _ => hg.1,
    ⟨hw'.1, fun c hc => isSized_of_isWord (hw'.2 c hc)⟩, hg', fun h => absurd rfl h, trivial⟩

theorem accepts_identifier : identifier.Accepts w ↔ IsIdentifier w := accepts_many1_one

theorem not_mem_of_noneOf {s : String} {d : Char} (hs : s.toList = [d])
    (h : ∀ c ∈ u, (!isAmong c s.toList) = true) : d ∉ u := by
  intro hd
  have hamong := h d hd
  rw [hs] at hamong
  simp [isAmong] at hamong

/-! ## Functions -/

theorem exists_of_function (h : Form.functionHead.here b start t.length t = some m) :
    ∃ w g w' g' p s r, IsIdentifier w ∧ IsGap g ∧ IsIdentifier w' ∧ g'.AllBlank ∧ ')' ∉ p ∧
      AllBlank s ∧ t = spaced [(w, g), (w', g')] ++ '(' :: (p ++ ')' :: (s ++ '\x7b' :: r)) ∧
      m.start = start ∧ m.group 2 = w ∧ m.group 3 = w' ∧ m.group 4 = p := by
  obtain ⟨k', hrun, hstart, -, hgroup⟩ := exists_run_of_here h
  let k : Cursor := ⟨b, t, t.length, []⟩
  have hk : k.Counts := rfl
  have hrun : identifier.run k (fun k₁ => gap.run (k₁.remember 2 (k.upTo k₁)) fun k₂ =>
      identifier.run k₂ fun k₃ => (blanks ++ lit '(').run (k₃.remember 3 (k₂.upTo k₃)) fun k₄ =>
        (many (noneOf ")")).run k₄ fun k₅ => (lit ')').run (k₅.remember 4 (k₄.upTo k₅)) fun k₆ =>
          (blanks ++ lit '\x7b').run (k₆.remember 1 (k.upTo k₆)) some) = some k' := hrun
  obtain ⟨w, r, hw, hr, h⟩ := exists_of_run rfl rfl hrun
  rw [remember_eq] at h
  generalize hs₂ : Cursor.upTo _ _ = s₂ at h
  have htype : s₂.text = w := hs₂ ▸ text_upTo_after hk hr
  obtain ⟨g, r, hg, hr', h⟩ := exists_of_run_after rfl rfl hr h
  obtain ⟨w', r, hw', hr, h⟩ := exists_of_run_after rfl rfl hr' h
  rw [remember_eq] at h
  generalize hs₃ : Cursor.upTo _ _ = s₃ at h
  have hname : s₃.text = w' := hs₃ ▸ text_upTo_after_after hk hr
  obtain ⟨_, r, ⟨g', o, hg', ho, rfl⟩, hr', h⟩ := exists_of_run_after rfl rfl hr h
  obtain rfl := accepts_lit.1 ho
  obtain ⟨p, r, hp, hr, h⟩ := exists_of_run_after rfl rfl hr' h
  rw [remember_eq] at h
  generalize hs₄ : Cursor.upTo _ _ = s₄ at h
  have hinside : s₄.text = p := hs₄ ▸ text_upTo_after_after hk hr
  obtain ⟨c, r, hc, hr', h⟩ := exists_of_run_after rfl rfl hr h
  obtain rfl := accepts_lit.1 hc
  rw [remember_eq] at h
  generalize Cursor.upTo _ _ = s₁ at h
  obtain ⟨_, r, ⟨s, c, hs, hc, rfl⟩, hr, h⟩ := exists_of_run_after rfl rfl hr' h
  obtain rfl := accepts_lit.1 hc
  cases h
  refine ⟨w, g, w', g', p, s, r, accepts_identifier.1 hw, accepts_gap.1 hg,
    accepts_identifier.1 hw', hg', not_mem_of_noneOf rfl hp, hs, ?_, hstart,
    (hgroup 1).trans htype, (hgroup 2).trans hname, (hgroup 3).trans hinside⟩
  refine hr.trans ?_
  simp

/-! ## Indented forms -/

/-- Blanks within a line. -/
def IsIndent (i : Text) : Prop := ∀ c ∈ i, c = ' ' ∨ c = '\t'

theorem accepts_indent : (many (oneOf " \t")).Accepts u ↔ IsIndent u := by
  refine forall₂_congr fun c _ => ?_
  show isAmong c [' ', '\t'] = true ↔ _
  simp [isAmong]

theorem IsIndent.eq_nil {i r r' : Text} {c : Char} (hi : IsIndent i) (hc : isBlank c = false)
    (h : c :: r = i ++ r') : i = [] := by
  cases i with
  | nil => rfl
  | cons d i =>
    obtain ⟨rfl, -⟩ := List.cons.inj h
    rcases hi c List.mem_cons_self with rfl | rfl
    · exact absurd hc (by decide)
    · exact absurd hc (by decide)

/-- A line begins behind this character, or at the beginning of a text. -/
def BeginsLine (b : Option Char) : Prop := b = none ∨ b = some '\n'

theorem atLineStart_iff : k.atLineStart = true ↔ BeginsLine k.before := by
  unfold Cursor.atLineStart BeginsLine
  cases k.before <;> simp

/-- An indented form begins at the beginning of a line, behind the indentation. -/
theorem exists_of_run_indent (h : Form.indent.run k done = some k') :
    BeginsLine k.before ∧ ∃ i r, IsIndent i ∧ k.rest = i ++ r ∧
      done ((k.after i).withGroups k.groups) = some k' := by
  have h : (if k.atLineStart then (many (oneOf " \t")).run k done else none) = some k' := h
  split at h
  · rename_i hline
    obtain ⟨i, r, hi, hr, h⟩ := exists_of_run rfl rfl h
    exact ⟨atLineStart_iff.1 hline, i, r, accepts_indent.1 hi, hr, h⟩
  · cases h

/-- The text of a struct, with what stands between the braces. -/
def structText (g n s f s' : Text) : Text :=
  spaced [("struct".toList, g), (n, s)] ++ '\x7b' :: (f ++ '\x7d' :: (s' ++ [';']))

theorem exists_of_struct (h : Form.structForm.here b start t.length t = some m) :
    BeginsLine b ∧ ∃ i g n s f s' r, IsIndent i ∧ IsGap g ∧ IsIdentifier n ∧ AllBlank s ∧
      '\x7d' ∉ f ∧ AllBlank s' ∧ t = i ++ (structText g n s f s' ++ r) ∧ m.start = start ∧
      m.text = i ++ structText g n s f s' ∧ m.group 1 = structText g n s f s' ∧ m.group 2 = n ∧
      m.group 3 = f := by
  obtain ⟨k', hrun, hstart, htext, hgroup⟩ := exists_run_of_here h
  let k : Cursor := ⟨b, t, t.length, []⟩
  have hk : k.Counts := rfl
  have hrun : Form.indent.run k (fun k₀ => (phrase "struct" ++ gap).run k₀ fun k₁ =>
      identifier.run k₁ fun k₂ => (blanks ++ lit '\x7b').run (k₂.remember 2 (k₁.upTo k₂)) fun k₃ =>
        (many1 (noneOf "\x7d")).run k₃ fun k₄ => (lit '\x7d' ++ blanks ++ lit ';').run
          (k₄.remember 3 (k₃.upTo k₄)) fun k₅ => some (k₅.remember 1 (k₀.upTo k₅))) =
            some k' := hrun
  obtain ⟨hline, i, r, hi, hr, h⟩ := exists_of_run_indent hrun
  obtain ⟨_, r, ⟨x, g, hx, hg, rfl⟩, hr', h⟩ := exists_of_run_after rfl rfl hr h
  obtain rfl := accepts_phrase.1 hx
  obtain ⟨n, r, hn, hr, h⟩ := exists_of_run_after rfl rfl hr' h
  rw [remember_eq] at h
  generalize hs₂ : Cursor.upTo _ _ = s₂ at h
  have hname : s₂.text = n := hs₂ ▸ text_upTo_after_after hk hr
  obtain ⟨_, r, ⟨s, c, hs, hc, rfl⟩, hr', h⟩ := exists_of_run_after rfl rfl hr h
  obtain rfl := accepts_lit.1 hc
  obtain ⟨f, r, hf, hr, h⟩ := exists_of_run_after rfl rfl hr' h
  rw [remember_eq] at h
  generalize hs₃ : Cursor.upTo _ _ = s₃ at h
  have hfields : s₃.text = f := hs₃ ▸ text_upTo_after_after hk hr
  obtain ⟨_, r, ⟨_, c', ⟨c, s', hc, hs', rfl⟩, hc', rfl⟩, hr', h⟩ :=
    exists_of_run_after rfl rfl hr h
  obtain rfl := accepts_lit.1 hc
  obtain rfl := accepts_lit.1 hc'
  have hsame : i ++ ("struct".toList ++ g) ++ n ++ (s ++ ['\x7b']) ++ f ++
      (['\x7d'] ++ s' ++ [';']) = i ++ structText g n s f s' := by
    simp [structText]
  rw [hsame] at h hr'
  cases h
  refine ⟨hline, i, g, n, s, f, s', r, hi, accepts_gap.1 hg, accepts_identifier.1 hn, hs,
    not_mem_of_noneOf rfl (accepts_many1_one.1 hf).2, hs', hr'.trans (List.append_assoc ..),
    hstart, htext.trans (text_upTo_after hk hr'), (hgroup 0).trans ?_, (hgroup 1).trans hname,
    (hgroup 2).trans hfields⟩
  exact text_upTo_after_after hk hr'

/-- The text of a macro; what may stand between the name and the blanks behind it are parameters. -/
def macroText (g n p g' c : Text) : Text := "#define".toList ++ (g ++ (n ++ (p ++ (g' ++ c))))

/-- What may stand behind the name of a macro: nothing, or a list in parentheses. -/
def IsParameters (p : Text) : Prop := p = [] ∨ ∃ q, ')' ∉ q ∧ p = '(' :: (q ++ [')'])

/-- The text that is remembered under a number, if any is. -/
def rememberedIn (gs : List (Nat × Span)) (n : Nat) : Text := ((gs.lookup n).map Span.text).getD []

/-- The parameters of a macro, if there are any, are remembered under a number of their own. -/
theorem exists_of_run_parameters {gs : List (Nat × Span)} {r : Text} (hk : k.Counts)
    (ht : k.rest = u ++ r) (hgs : gs.lookup 3 = none)
    (h : (optional (group 3 (lit '(' ++ many (noneOf ")") ++ lit ')'))).run
      ((k.after u).withGroups gs) done = some k') :
    ∃ p r gs', IsParameters p ∧ rememberedIn gs' 2 = rememberedIn gs 2 ∧ rememberedIn gs' 3 = p ∧
      k.rest = u ++ p ++ r ∧ done ((k.after (u ++ p)).withGroups gs') = some k' := by
  let inner : Pattern := lit '(' ++ many (noneOf ")") ++ lit ')'
  let k₀ : Cursor := (k.after u).withGroups gs
  have h : ((inner.run k₀ fun k₁ => done (k₁.remember 3 (k₀.upTo k₁))).orElse fun _ => done k₀) =
    some k' := h
  cases hrun : inner.run k₀ fun k₁ => done (k₁.remember 3 (k₀.upTo k₁)) with
  | none =>
    rw [hrun] at h
    refine ⟨[], r, gs, Or.inl rfl, rfl, ?_, by rw [ht, List.append_nil], by rwa [List.append_nil]⟩
    rw [rememberedIn, hgs]
    rfl
  | some k₁ =>
    rw [hrun] at h
    cases h
    obtain ⟨_, r, ⟨_, _, ⟨o, q, ho, hq, rfl⟩, hc, rfl⟩, hr, h⟩ :=
      exists_of_run_after rfl rfl ht hrun
    obtain rfl := accepts_lit.1 ho
    obtain rfl := accepts_lit.1 hc
    rw [remember_eq] at h
    generalize hs : Cursor.upTo _ _ = s at h
    have htext : s.text = '(' :: (q ++ [')']) :=
      hs ▸ (text_upTo_after_after hk hr).trans (by simp)
    exact ⟨_, r, (3, s) :: gs, Or.inr ⟨q, not_mem_of_noneOf rfl hq, by simp⟩, rfl,
      htext.trans (by simp), hr, h⟩

theorem append_macroText (i g n p g' c : Text) :
    i ++ ("#define".toList ++ g) ++ n ++ p ++ g' ++ c = i ++ macroText g n p g' c := by
  unfold macroText
  simp only [List.append_assoc]

theorem accepts_lineGap : (many1 (oneOf " \t")).Accepts u ↔ IsLineGap u :=
  accepts_many1_one.trans (and_congr_right fun _ => accepts_indent)

/-- Here the text ends, or a line. -/
def EndsLine (t : Text) : Prop := t = [] ∨ ∃ s, t = '\n' :: s

theorem exists_of_run_lineEnd (h : lineEnd.run k some = some k') :
    EndsLine k.rest ∧ k' = k := by
  have h : (if k.atLineEnd then some k else none) = some k' := h
  split at h
  · rename_i hend
    refine ⟨?_, (Option.some.inj h).symm⟩
    unfold Cursor.atLineEnd at hend
    split at hend
    · exact Or.inl ‹_›
    · rename_i c t hrest
      exact Or.inr ⟨t, by rw [hrest, beq_iff_eq.1 hend]⟩
  · cases h

theorem exists_of_define (h : Form.defineForm.here b start t.length t = some m) :
    BeginsLine b ∧ ∃ i g n p g' c r, IsIndent i ∧ IsLineGap g ∧ IsIdentifier n ∧ IsParameters p ∧
      IsLineGap g' ∧ '\n' ∉ c ∧ t = i ++ (macroText g n p g' c ++ r) ∧
      EndsLine r ∧ m.start = start ∧ m.text = i ++ macroText g n p g' c ∧
      m.group 1 = macroText g n p g' c ∧ m.group 2 = n ∧ m.group 3 = p ∧ m.group 4 = c := by
  obtain ⟨k', hrun, hstart, htext, hgroup⟩ := exists_run_of_here h
  let k : Cursor := ⟨b, t, t.length, []⟩
  have hk : k.Counts := rfl
  have hrun : Form.indent.run k (fun k₀ => (phrase "#define" ++ many1 (oneOf " \t")).run k₀
      fun k₁ => identifier.run k₁ fun k₂ =>
        (optional (group 3 (lit '(' ++ many (noneOf ")") ++ lit ')'))).run
          (k₂.remember 2 (k₁.upTo k₂)) fun k₃ => (many1 (oneOf " \t")).run k₃ fun k₄ =>
            (many (noneOf "\n")).run k₄ fun k₅ =>
              lineEnd.run ((k₅.remember 4 (k₄.upTo k₅)).remember 1
                (k₀.upTo (k₅.remember 4 (k₄.upTo k₅)))) some) = some k' := hrun
  obtain ⟨hline, i, r, hi, hr, h⟩ := exists_of_run_indent hrun
  obtain ⟨_, r, ⟨x, g, hx, hg, rfl⟩, hr', h⟩ := exists_of_run_after rfl rfl hr h
  obtain rfl := accepts_phrase.1 hx
  obtain ⟨n, r, hn, hr, h⟩ := exists_of_run_after rfl rfl hr' h
  rw [remember_eq] at h
  generalize hs₂ : Cursor.upTo _ _ = s₂ at h
  have hname : s₂.text = n := hs₂ ▸ text_upTo_after_after hk hr
  obtain ⟨p, r, gs, hp, htwo, hthree, hr', h⟩ := exists_of_run_parameters hk hr rfl h
  obtain ⟨g', r, hg', hr, h⟩ := exists_of_run_after rfl rfl hr' h
  obtain ⟨c, r, hc, hr', h⟩ := exists_of_run_after rfl rfl hr h
  rw [remember_eq] at h
  generalize hs₄ : Cursor.upTo _ _ = s₄ at h
  have hcontent : s₄.text = c := hs₄ ▸ text_upTo_after_after hk hr'
  rw [remember_eq] at h
  obtain ⟨hend, h⟩ := exists_of_run_lineEnd h
  rw [append_macroText] at h hr' hend
  subst h
  refine ⟨hline, i, g, n, p, g', c, r, hi, accepts_lineGap.1 hg, accepts_identifier.1 hn, hp,
    accepts_lineGap.1 hg', not_mem_of_noneOf rfl hc, hr'.trans (List.append_assoc ..), ?_,
    hstart, htext.trans (text_upTo_after hk hr'), (hgroup 0).trans ?_, (hgroup 1).trans ?_,
    (hgroup 2).trans ?_, (hgroup 3).trans hcontent⟩
  · exact (rest_after_of_eq hr') ▸ hend
  · exact text_upTo_after_after hk hr'
  · exact htwo.trans hname
  · exact hthree

/-! ## Imports and exports -/

/-- The pattern takes an accepted text, whatever it remembers of it. -/
theorem exists_accepted_of_run {p : Pattern} (hp : p.isPlain = true)
    (h : p.run k done = some k') : ∃ u r, p.Accepts u ∧ k.rest = u ++ r := by
  rw [run_eq_findSome?] at h
  obtain ⟨k₁, hk₁, -⟩ := List.exists_of_findSome?_eq_some h
  obtain ⟨u, r, -, hu, hr, -⟩ := exists_of_mem_outcomes hp hk₁
  exact ⟨u, r, hu, hr⟩

theorem exists_of_import (h : Statement.importForm.here b start t.length t = some m) :
    ∃ g x s r, AllBlank g ∧ '\x7d' ∉ x ∧ AllBlank s ∧
      t = "import".toList ++ (g ++ '\x7b' :: (x ++ '\x7d' :: (s ++ ("from".toList ++ r)))) := by
  obtain ⟨k', hrun, -⟩ := exists_run_of_here h
  obtain ⟨done, hrun⟩ : ∃ done, (phrase "import" ++ blanks ++ lit '\x7b' ++
      (blanks ++ group 1 (many (noneOf "\x7d"))) ++ lit '\x7d' ++ blanks ++ phrase "from").run
        ⟨b, t, t.length, []⟩ done = some k' := ⟨_, hrun⟩
  obtain ⟨_, r, ⟨_, f, ⟨_, s, ⟨_, c, ⟨_, y, ⟨_, o, ⟨v, g, hv, hg, rfl⟩, ho, rfl⟩,
    ⟨g', x, hg', hx, rfl⟩, rfl⟩, hc, rfl⟩, hs, rfl⟩, hf, rfl⟩, hr⟩ :=
      exists_accepted_of_run rfl hrun
  obtain rfl := accepts_phrase.1 hv
  obtain rfl := accepts_lit.1 ho
  obtain rfl := accepts_lit.1 hc
  obtain rfl := accepts_phrase.1 hf
  have hx : '\x7d' ∉ x := not_mem_of_noneOf rfl hx
  have hg' : '\x7d' ∉ g' := fun hmem => absurd (hg' _ hmem) (by decide)
  refine ⟨g, g' ++ x, s, r, hg, by simp [hg', hx], hs, ?_⟩
  refine hr.trans ?_
  simp

theorem exists_of_export (h : Statement.exportForm.here b start t.length t = some m) :
    BeginsLine b ∧ ∃ i g r, IsIndent i ∧ AllBlank g ∧
      t = i ++ ("export".toList ++ (g ++ '\x7b' :: r)) := by
  obtain ⟨k', hrun, -⟩ := exists_run_of_here h
  obtain ⟨done, hrun⟩ : ∃ done, Form.indent.run ⟨b, t, t.length, []⟩ (fun k =>
    (phrase "export" ++ blanks ++ lit '\x7b').run k done) = some k' := ⟨_, hrun⟩
  obtain ⟨hline, i, r, hi, hr, h⟩ := exists_of_run_indent hrun
  obtain ⟨_, r, ⟨_, o, ⟨v, g, hv, hg, rfl⟩, ho, rfl⟩, hr', -⟩ :=
    exists_of_run_after rfl rfl hr h
  obtain rfl := accepts_phrase.1 hv
  obtain rfl := accepts_lit.1 ho
  refine ⟨hline, i, g, r, hi, hg, ?_⟩
  refine hr'.trans ?_
  simp only [List.append_assoc, List.cons_append, List.nil_append]

theorem exists_of_run_textEnd (h : textEnd.run k some = some k') : k' = k := by
  have h : (if k.atTextEnd then some k else none) = some k' := h
  split at h
  · exact (Option.some.inj h).symm
  · cases h

/-- A name and perhaps an alias, up to the end of the text: both are identifiers. -/
theorem exists_of_run_aliased {i j : Nat} (hij : i ≠ j) (hk : k.Counts) (hfree : k.group? j = none)
    (h : identifier.run k (fun k₁ =>
      (optional (gap ++ phrase "as" ++ gap ++ group j identifier)).run
        (k₁.remember i (k.upTo k₁)) fun k₂ => textEnd.run k₂ some) = some k') :
    (∃ w, k'.group? i = some w ∧ IsIdentifier w) ∧ ∀ w, k'.group? j = some w → IsIdentifier w := by
  obtain ⟨w, r, hw, hr, h⟩ := exists_of_run rfl rfl h
  rw [remember_eq] at h
  generalize hs₁ : Cursor.upTo _ _ = s₁ at h
  have hname : s₁.text = w := hs₁ ▸ text_upTo_after hk hr
  let k₀ : Cursor := (k.after w).withGroups ((i, s₁) :: (k.after w).groups)
  have hi : k₀.group? i = some w := by simp [k₀, Cursor.group?, hname]
  have hj : k₀.group? j = none := by
    have hne : (j == i) = false := beq_false_of_ne hij.symm
    rw [← hfree]
    simp [k₀, Cursor.group?, List.lookup_cons, hne]
  have h : (((gap ++ phrase "as" ++ gap).run k₀ fun k₁ => identifier.run k₁ fun k₂ =>
      textEnd.run (k₂.remember j (k₁.upTo k₂)) some).orElse fun _ => textEnd.run k₀ some) =
        some k' := h
  cases halias : (gap ++ phrase "as" ++ gap).run k₀ fun k₁ => identifier.run k₁ fun k₂ =>
      textEnd.run (k₂.remember j (k₁.upTo k₂)) some with
  | none =>
    rw [halias] at h
    obtain rfl := exists_of_run_textEnd h
    exact ⟨⟨w, hi, accepts_identifier.1 hw⟩, fun v hv => nomatch hj.symm.trans hv⟩
  | some k₁ =>
    rw [halias] at h
    cases h
    obtain ⟨_, r, -, hr', h⟩ := exists_of_run_after rfl rfl hr halias
    obtain ⟨w', r, hw', hr, h⟩ := exists_of_run_after rfl rfl hr' h
    rw [remember_eq] at h
    generalize hs₂ : Cursor.upTo _ _ = s₂ at h
    have hother : s₂.text = w' := hs₂ ▸ text_upTo_after_after hk hr
    obtain rfl := exists_of_run_textEnd h
    have hne : (i == j) = false := beq_false_of_ne hij
    refine ⟨⟨w, ?_, accepts_identifier.1 hw⟩, fun v hv => ?_⟩
    · rw [← hi]
      simp [k₀, Cursor.group?, List.lookup_cons, hne]
    · have hv : some s₂.text = some v := by simpa [Cursor.group?, List.lookup_cons] using hv
      rw [← Option.some.inj hv, hother]
      exact accepts_identifier.1 hw'

/-- The name in an entry of an import is an identifier, and so is the alias if there is one. -/
theorem isIdentifier_of_importEntry (h : Statement.importEntry.here b start t.length t = some m) :
    IsIdentifier (m.group 1) ∧ ∀ w, m.group? 2 = some w → IsIdentifier w := by
  obtain ⟨k', hrun, rfl⟩ := Option.map_eq_some_iff.1 h
  let k : Cursor := ⟨b, t, t.length, []⟩
  have hk : k.Counts := rfl
  have hrun : (if k.atTextStart then identifier.run k (fun k₁ =>
      (optional (gap ++ phrase "as" ++ gap ++ group 2 identifier)).run
        (k₁.remember 1 (k.upTo k₁)) fun k₂ => textEnd.run k₂ some) else none) = some k' := hrun
  split at hrun
  · obtain ⟨⟨w, hw, hname⟩, halias⟩ := exists_of_run_aliased (by decide) hk rfl hrun
    refine ⟨?_, halias⟩
    show IsIdentifier ((k'.group? 1).getD [])
    rwa [hw]
  · cases hrun

/-- The same of an entry of an export, where a qualifier may stand in front. -/
theorem isIdentifier_of_exportEntry (h : Statement.exportEntry.here b start t.length t = some m) :
    IsIdentifier (m.group 2) ∧ ∀ w, m.group? 3 = some w → IsIdentifier w := by
  obtain ⟨k', hrun, rfl⟩ := Option.map_eq_some_iff.1 h
  let k : Cursor := ⟨b, t, t.length, []⟩
  have hk : k.Counts := rfl
  let aliased : Cursor → Option Cursor := fun k => identifier.run k fun k₁ =>
    (optional (gap ++ phrase "as" ++ gap ++ group 3 identifier)).run
      (k₁.remember 2 (k.upTo k₁)) fun k₂ => textEnd.run k₂ some
  have hfound : ∀ k₁ : Cursor, k₁.Counts → k₁.group? 3 = none → aliased k₁ = some k' →
      IsIdentifier ((k'.group? 2).getD []) ∧ ∀ w, k'.group? 3 = some w → IsIdentifier w := by
    intro k₁ hk hfree hrun
    obtain ⟨⟨w, hw, hname⟩, halias⟩ := exists_of_run_aliased (by decide) hk hfree hrun
    exact ⟨hw ▸ hname, halias⟩
  have hrun : (if k.atTextStart then ((identifier.run k fun k₁ =>
      gap.run (k₁.remember 1 (k.upTo k₁)) aliased).orElse fun _ => aliased k) else none) =
        some k' := hrun
  split at hrun
  · cases hqualified : identifier.run k fun k₁ => gap.run (k₁.remember 1 (k.upTo k₁)) aliased with
    | none =>
      rw [hqualified] at hrun
      exact hfound k hk rfl hrun
    | some k₁ =>
      rw [hqualified] at hrun
      cases hrun
      obtain ⟨_, r, -, hr, h⟩ := exists_of_run rfl rfl hqualified
      rw [remember_eq] at h
      obtain ⟨_, r, -, -, h⟩ := exists_of_run_after rfl rfl hr h
      exact hfound _ ((hk.after _).withGroups _) rfl h
  · cases hrun

end ShaderLink
