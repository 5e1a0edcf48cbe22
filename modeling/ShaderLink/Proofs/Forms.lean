import ShaderLink.Proofs.Captures
import ShaderLink.Proofs.Layouts
import ShaderLink.Proofs.Reading

/-!
# What the forms of uniforms and global variables take

The forms of uniforms and global variables take nothing but texts with a layout of their kind, and
remember the whole word of the type, the whole word of the name and, for a global variable, the
value without the blanks around it (`exists_layout_of_here`).  A text that a form has taken is taken
by it again when nothing else is there, and read in the same way (`exists_layout_of_sequence`).
-/

namespace ShaderLink

open Pattern Cursor

/-! ## Matching sized words -/

section Matching

variable {done : Cursor → Option Cursor} {k k' : Cursor} {n : Nat}

/-- Sizes go on behind words. -/
theorem takeWhile_isSized (t : Text) : t.takeWhile isSized =
    t.takeWhile Text.isWord ++ (t.dropWhile Text.isWord).takeWhile isSized := by
  rw [← List.takeWhile_append_of_pos, List.takeWhile_append_dropWhile]
  exact fun c hc => isSized_of_isWord (List.mem_takeWhile_imp hc)

/-- The sized word that comes next, if a word character does. -/
def SizedWord.opening (c : Char) (t : Text) (hc : Text.isWord c = true) : SizedWord where
  word := c :: t.takeWhile Text.isWord
  size := (t.dropWhile Text.isWord).takeWhile isSized
  isIdentifier := ⟨List.cons_ne_nil _ _,
    List.forall_mem_cons.2 ⟨hc, fun _ hd => List.mem_takeWhile_imp hd⟩⟩
  isSized_size := fun _ hd => List.mem_takeWhile_imp hd
  opensWord_size := by
    have hhead := List.head?_dropWhile_not Text.isWord t
    cases hd : t.dropWhile Text.isWord with
    | nil => rfl
    | cons d r =>
      rw [hd] at hhead
      by_cases hsize : isSized d = true
      · rw [List.takeWhile_cons_of_pos hsize]
        simpa using hhead
      · rw [List.takeWhile_cons_of_neg hsize]
        rfl

theorem SizedWord.text_opening {c : Char} {t : Text} (hc : Text.isWord c = true) :
    (opening c t hc).text = c :: t.takeWhile isSized := by
  rw [takeWhile_isSized]
  rfl

/-- A sized word is taken as a whole, and so is the word in it, if nothing is accepted inside. -/
theorem run_sized {c : Char} {t : Text} (hreject : Rejects isSized done) (hblind : Blind done)
    (hk : k.Counts) (ht : k.rest = c :: t) (hc : Text.isWord c = true) :
    (Form.sized n).run k done =
      done ((k.after (SizedWord.opening c t hc).text).withGroups
        ((n, k.upTo (k.after (SizedWord.opening c t hc).word)) :: k.groups)) := by
  let behind : Cursor → Option Cursor := fun k₁ =>
    done ((k₁.after (k₁.rest.takeWhile isSized)).withGroups ((n, k.upTo k₁) :: k₁.groups))
  have hrun : (Form.sized n).run k done = (chars Text.isWord).run (k.after [c]) behind := by
    have hbehind : behind = fun k₁ => (chars isSized).run (k₁.remember n (k.upTo k₁)) done := by
      funext k₁
      exact (run_chars_of_rejects hreject (k₁.remember n (k.upTo k₁))).symm
    show (one Text.isWord).run k (fun k₁ => (chars Text.isWord).run k₁ _) = _
    rw [hbehind, ← next_eq_after ht]
    unfold run
    rw [ht]
    exact if_pos hc
  -- however short the word is taken, the place behind the sizes is the same
  have hplace : ∀ v, v <+: t.takeWhile Text.isWord → behind ((k.after [c]).after v) =
      done ((k.after (SizedWord.opening c t hc).text).withGroups
        ((n, k.upTo (k.after (c :: v))) :: k.groups)) := by
    intro v hv
    obtain ⟨r, hr⟩ := hv.trans (List.takeWhile_prefix Text.isWord)
    have hsized : t.takeWhile isSized = v ++ r.takeWhile isSized := by
      rw [← hr, List.takeWhile_append_of_pos]
      exact fun d hd => isSized_of_isWord (List.mem_takeWhile_imp (hv.subset hd))
    have hafter : (k.after [c]).after v = k.after (c :: v) := after_after k [c] v
    have hrest : (k.after (c :: v)).rest = r := rest_after_of_eq (by rw [ht, ← hr]; rfl)
    show done ((((k.after [c]).after v).after _).withGroups _) = _
    rw [hafter, hrest, after_after, SizedWord.text_opening, hsized]
    rfl
  have hrest : (k.after [c]).rest = t := rest_after_of_eq ht
  rw [hrun, run_chars_eq, hrest, hplace _ List.prefix_rfl]
  · rfl
  · intro v hv hsome
    rw [hrest] at hv ⊢
    rw [hplace v hv] at hsome
    rw [hplace _ List.prefix_rfl]
    exact (hblind _ _ (hk.after _)).2 ((hblind _ _ (hk.after _)).1 hsome)

theorem exists_of_run_sized {u t : Text} (gs : List (Nat × Span)) (hreject : Rejects isSized done)
    (hblind : Blind done) (hk : k.Counts) (ht : k.rest = u ++ t)
    (h : (Form.sized n).run ((k.after u).withGroups gs) done = some k') :
    ∃ (w : SizedWord) (r : Text) (s : Span), k.rest = u ++ w.text ++ r ∧ s.text = w.word ∧
      done ((k.after (u ++ w.text)).withGroups ((n, s) :: gs)) = some k' := by
  have hrest : ((k.after u).withGroups gs).rest = t := rest_after_of_eq ht
  have hcount : ((k.after u).withGroups gs).Counts := (hk.after u).withGroups gs
  obtain ⟨c, r, rfl, hc⟩ : ∃ c r, t = c :: r ∧ Text.isWord c = true := by
    have hfirst : (one Text.isWord).run ((k.after u).withGroups gs) (fun k₁ =>
        (chars Text.isWord).run k₁ fun k₁ =>
          (chars isSized).run (k₁.remember n (Cursor.upTo _ k₁)) done) = some k' := h
    obtain ⟨v, r, ⟨c, hc, rfl⟩, hr, -⟩ := exists_of_run rfl rfl hfirst
    exact ⟨c, r, hrest.symm.trans hr, hc⟩
  rw [run_sized hreject hblind hcount hrest hc, after_withGroups, after_after] at h
  refine ⟨_, r.dropWhile isSized, _, ?_, ?_, h⟩
  · rw [SizedWord.text_opening, ht, List.append_assoc, List.cons_append,
      List.takeWhile_append_dropWhile]
  · refine text_upTo_after (t := r.dropWhile Text.isWord) hcount ?_
    rw [hrest]
    show c :: r = c :: (r.takeWhile Text.isWord ++ r.dropWhile Text.isWord)
    rw [List.takeWhile_append_dropWhile]

theorem accepts_gap {u : Text} : gap.Accepts u ↔ IsGap u := accepts_many1_one

theorem rejects_gap : Rejects isSized fun k => gap.run k done := by
  refine rejects_run rfl fun u hu => ?_
  obtain ⟨c, v, rfl⟩ := List.exists_cons_of_ne_nil (accepts_gap.1 hu).1
  exact ⟨c, v, rfl, isSized_of_isBlank ((accepts_gap.1 hu).2 c List.mem_cons_self)⟩

/-- Keywords, type and name: both words are remembered as a whole. -/
theorem exists_of_run_names {lead : Pattern} (hlead : lead.isPlain = true)
    (hzero : lead.groupCount = 0) (hreject : Rejects isSized done) (hblind : Blind done)
    (hk : k.Counts)
    (h : lead.run k (fun k => (Form.sized 2).run k fun k => gap.run k fun k =>
      (Form.sized 3).run k done) = some k') :
    ∃ (u g t : Text) (w v : SizedWord) (s₂ s₃ : Span), lead.Accepts u ∧ IsGap g ∧
      k.rest = u ++ w.text ++ g ++ v.text ++ t ∧ s₂.text = w.word ∧ s₃.text = v.word ∧
      done ((k.after (u ++ w.text ++ g ++ v.text)).withGroups ((3, s₃) :: (2, s₂) :: k.groups)) =
        some k' := by
  have hsized : Blind fun k => (Form.sized 3).run k done := blind_run rfl hblind
  obtain ⟨u, t, hu, ht, h⟩ := exists_of_run hlead hzero h
  obtain ⟨w, t, s₂, ht, hs₂, h⟩ := exists_of_run_sized k.groups rejects_gap
    (blind_run rfl hsized) hk ht h
  obtain ⟨g, t, hg, ht, h⟩ := exists_of_run_after rfl rfl ht h
  obtain ⟨v, t, s₃, ht, hs₃, h⟩ := exists_of_run_sized _ hreject hblind hk ht h
  exact ⟨u, g, t, w, v, s₂, s₃, hu, accepts_gap.1 hg, ht, hs₂, hs₃, h⟩

/-! ## Keywords and values -/

theorem accepts_few1_noneOf {u : Text} :
    (few1 (noneOf ";")).Accepts u ↔ u ≠ [] ∧ ';' ∉ u := by
  refine accepts_few1_one.trans (and_congr_right fun _ => ?_)
  have hone : ∀ c, (!isAmong c ";".toList) = true ↔ c ≠ ';' := by
    intro c
    show (!(c == ';' || false)) = true ↔ _
    simp
  simp only [hone]
  exact ⟨fun h hmem => h _ hmem rfl, fun h c hc heq => h (heq ▸ hc)⟩

namespace Form

/-- The keyword of a global variable, if it has one. -/
def globalLead : Pattern := optional (phrase "const" ++ gap)

/-- The keywords of a uniform. -/
def uniformLead : Pattern :=
  phrase "uniform" ++ gap ++
    optional (either (phrase "lowp") (either (phrase "mediump") (phrase "highp")) ++ gap)

/-- What stands behind the name of a global variable; the value (4). -/
def globalEnding : Pattern :=
  blanks ++ lit '=' ++ blanks ++ group 4 (few1 (noneOf ";")) ++ blanks ++ lit ';'

/-- What stands behind the name of a uniform. -/
def uniformEnding : Pattern :=
  blanks ++ optional (lit '=' ++ blanks ++ few1 (noneOf ";") ++ blanks) ++ lit ';'

/-- A closing brace before the next opening one. -/
def closing : Pattern := many (noneOf "\x7b") ++ lit '}'

end Form

/-- Keywords with the gaps behind them, as they may stand in front. -/
def Opens (kind : Kind) (ks : List (Text × Text)) (u : Text) : Prop :=
  (∀ k ∈ ks, Text.IsIdentifier k.1 ∧ IsGap k.2) ∧ ks.map Prod.fst ∈ kind.openings ∧
    u = ks.flatMap fun k => k.1 ++ k.2

theorem exists_opens_global {u : Text} (h : Form.globalLead.Accepts u) :
    ∃ ks, Opens .global ks u := by
  rcases h with ⟨v, g, hv, hg, rfl⟩ | rfl
  · obtain rfl := accepts_phrase.1 hv
    have hconst : Text.IsIdentifier "const".toList := by decide
    have hopening : ["const".toList] ∈ Kind.global.openings := by decide
    refine ⟨[("const".toList, g)], ?_, hopening, by simp⟩
    simpa using ⟨hconst, accepts_gap.1 hg⟩
  · exact ⟨[], List.forall_mem_nil _, by decide, rfl⟩

theorem exists_opens_uniform {u : Text} (h : Form.uniformLead.Accepts u) :
    ∃ ks, Opens .uniform ks u := by
  obtain ⟨_, p, ⟨v, g, hv, hg, rfl⟩, hp, rfl⟩ := h
  obtain rfl := accepts_phrase.1 hv
  have huniform : Text.IsIdentifier "uniform".toList := by decide
  rcases hp with ⟨q, g', hq, hg', rfl⟩ | rfl
  · have hprecision : Text.IsIdentifier q ∧ ["uniform".toList, q] ∈ Kind.uniform.openings := by
      rcases hq with hq | hq | hq <;> obtain rfl := accepts_phrase.1 hq <;> decide
    refine ⟨[("uniform".toList, g), (q, g')], ?_, hprecision.2, by simp⟩
    simpa using ⟨⟨huniform, accepts_gap.1 hg⟩, hprecision.1, accepts_gap.1 hg'⟩
  · have hopening : ["uniform".toList] ∈ Kind.uniform.openings := by decide
    refine ⟨[("uniform".toList, g)], ?_, hopening, by simp⟩
    simpa using ⟨huniform, accepts_gap.1 hg⟩

/-- Blanks and then a character that is no part of a sized word. -/
theorem exists_head_of_blanks {c : Char} {u v : Text} (hu : blanks.Accepts u)
    (hc : isSized c = false) : ∃ d w, u ++ c :: v = d :: w ∧ isSized d = false := by
  cases u with
  | nil => exact ⟨c, v, rfl, hc⟩
  | cons d u => exact ⟨d, u ++ c :: v, rfl, isSized_of_isBlank (hu d List.mem_cons_self)⟩

theorem exists_value_of_accepts {u : Text} (h : Form.uniformEnding.Accepts u) :
    ∃ space value, space.AllBlank ∧ (∀ v, value = some v → ';' ∉ v) ∧
      u = space ++ Layout.ending value := by
  obtain ⟨_, e, ⟨space, o, hspace, ho, rfl⟩, he, rfl⟩ := h
  obtain rfl := accepts_lit.1 he
  rcases ho with ⟨_, b', ⟨_, v, ⟨e, b, he, hb, rfl⟩, hv, rfl⟩, hb', rfl⟩ | rfl
  · obtain rfl := accepts_lit.1 he
    refine ⟨space, some (b ++ v ++ b'), hspace, ?_, by simp [Layout.ending]⟩
    rintro _ ⟨⟩
    have hpadded : v.Padded (b ++ v ++ b') := ⟨b, b', hb, hb', rfl⟩
    exact hpadded.semicolon_not_mem (accepts_few1_noneOf.1 hv).2
  · exact ⟨space, none, hspace, fun v h => absurd h (Option.some_ne_none v).symm,
      by simp [Layout.ending]⟩

theorem rejects_uniformEnding : Rejects isSized fun k => Form.uniformEnding.run k done := by
  refine rejects_run rfl fun u hu => ?_
  obtain ⟨space, value, hspace, -, rfl⟩ := exists_value_of_accepts hu
  cases value with
  | none => exact exists_head_of_blanks hspace (by decide)
  | some v => exact exists_head_of_blanks hspace (by decide)

theorem rejects_globalEnding : Rejects isSized fun k => Form.globalEnding.run k done := by
  refine rejects_run rfl fun u hu => ?_
  obtain ⟨_, r, ⟨_, s, ⟨_, v, ⟨_, b, ⟨space, e, hspace, he, rfl⟩, -, rfl⟩, -, rfl⟩, -, rfl⟩, -,
    rfl⟩ := hu
  obtain rfl := accepts_lit.1 he
  simpa using exists_head_of_blanks (c := '=') (v := b ++ v ++ s ++ r) hspace (by decide)

/-- The value is remembered without the blanks around it. -/
theorem exists_of_run_globalEnding {u t : Text} {gs : List (Nat × Span)} (hk : k.Counts)
    (ht : k.rest = u ++ t)
    (h : Form.globalEnding.run ((k.after u).withGroups gs) done = some k') :
    ∃ (space v r : Text) (s : Span), space.AllBlank ∧ s.text.Padded v ∧ ';' ∉ v ∧
      k.rest = u ++ (space ++ Layout.ending (some v)) ++ r ∧
      done ((k.after (u ++ (space ++ Layout.ending (some v)))).withGroups ((4, s) :: gs)) =
        some k' := by
  have h : (blanks ++ lit '=' ++ blanks).run ((k.after u).withGroups gs) (fun k₁ =>
      (few1 (noneOf ";")).run k₁ fun k₂ =>
        (blanks ++ lit ';').run (k₂.remember 4 (k₁.upTo k₂)) done) = some k' := h
  obtain ⟨_, r, ⟨_, b, ⟨space, e, hspace, he, rfl⟩, hb, rfl⟩, hr, h⟩ :=
    exists_of_run_after rfl rfl ht h
  obtain rfl := accepts_lit.1 he
  obtain ⟨v, r, hv, hr', h⟩ := exists_of_run_after rfl rfl hr h
  rw [remember_eq] at h
  generalize hs : Cursor.upTo _ _ = s at h
  obtain ⟨_, r, ⟨b', e, hb', he, rfl⟩, hr, h⟩ := exists_of_run_after rfl rfl hr' h
  obtain rfl := accepts_lit.1 he
  have htext : s.text = v := hs ▸ text_upTo_after_after hk hr'
  have hpadded : s.text.Padded (b ++ v ++ b') := ⟨b, b', hb, hb', by rw [htext]⟩
  refine ⟨space, b ++ v ++ b', r, s, hspace, hpadded, ?_, ?_, ?_⟩
  · exact hpadded.semicolon_not_mem (htext ▸ (accepts_few1_noneOf.1 hv).2)
  · rw [hr]
    simp [Layout.ending]
  · simpa [Layout.ending] using h

end Matching

/-! ## Reading a layout -/

/-- The match takes a text with this layout, and remembers its parts. -/
structure Layout.ReadBy (x : Layout) (kind : Kind) (m : Match) : Prop where
  suits : x.Suits kind
  text : m.text = x.text
  type : m.group 2 = x.type.word
  name : m.group 3 = x.name.word
  value : kind = .global → ∃ v, x.value = some v ∧ (m.group 4).Padded v

section Reading

variable {b : Option Char} {start : Nat} {t : Text} {m : Match}

theorem exists_layout_of_uniform (h : Form.uniformForm.here b start t.length t = some m) :
    ∃ x : Layout, x.ReadBy .uniform m := by
  obtain ⟨k', hrun, -, htext, hgroup⟩ := exists_run_of_here h
  let k : Cursor := ⟨b, t, t.length, []⟩
  have hk : k.Counts := rfl
  have hrun : Form.uniformLead.run k (fun k₁ => (Form.sized 2).run k₁ fun k₁ => gap.run k₁ fun k₁ =>
      (Form.sized 3).run k₁ fun k₁ => Form.uniformEnding.run k₁ fun k₁ =>
        some (k₁.remember 1 (k.upTo k₁))) = some k' := hrun
  obtain ⟨u, g, r, w, v, s₂, s₃, hu, hg, hr, hs₂, hs₃, hrun⟩ := exists_of_run_names rfl rfl
    rejects_uniformEnding (blind_run rfl (blind_some _)) hk hrun
  obtain ⟨e, r, he, hr, hrun⟩ := exists_of_run_after rfl rfl hr hrun
  obtain ⟨ks, hks, hopening, rfl⟩ := exists_opens_uniform hu
  obtain ⟨space, value, hspace, hvalue, rfl⟩ := exists_value_of_accepts he
  cases hrun
  refine ⟨⟨ks, w, g, v, space, value, hks, hg, hspace, hvalue⟩, ⟨hopening, nofun⟩, ?_, ?_, ?_,
    nofun⟩
  · rw [htext]
    refine (text_upTo_after hk hr).trans ?_
    simp [Layout.text, Layout.front, Layout.head]
  · rw [hgroup]
    exact hs₂
  · rw [hgroup]
    exact hs₃

theorem exists_layout_of_global (h : Form.globalForm.here b start t.length t = some m) :
    ∃ x : Layout, x.ReadBy .global m := by
  obtain ⟨k', hrun, -, htext, hgroup⟩ := exists_run_of_here h
  let k : Cursor := ⟨b, t, t.length, []⟩
  have hk : k.Counts := rfl
  have hblind : Blind fun k₁ => (notAhead Form.closing).run (k₁.remember 1 (k.upTo k₁)) some :=
    blind_remember (blind_notAhead rfl (blind_some id)) k 1
  have hrun : Form.globalLead.run k (fun k₁ => (Form.sized 2).run k₁ fun k₁ => gap.run k₁ fun k₁ =>
      (Form.sized 3).run k₁ fun k₁ => Form.globalEnding.run k₁ fun k₁ =>
        (notAhead Form.closing).run (k₁.remember 1 (k.upTo k₁)) some) = some k' := hrun
  obtain ⟨u, g, r, w, v, s₂, s₃, hu, hg, hr, hs₂, hs₃, hrun⟩ := exists_of_run_names rfl rfl
    rejects_globalEnding (blind_run rfl hblind) hk hrun
  obtain ⟨space, value, r, s₄, hspace, hpadded, hvalue, hr, hrun⟩ :=
    exists_of_run_globalEnding hk hr hrun
  obtain ⟨ks, hks, hopening, rfl⟩ := exists_opens_global hu
  rw [remember_eq] at hrun
  obtain ⟨-, hrun⟩ := run_notAhead_eq_some_iff.1 hrun
  cases hrun
  refine ⟨⟨ks, w, g, v, space, some value, hks, hg, hspace, fun _ h => Option.some.inj h ▸ hvalue⟩,
    ⟨hopening, fun _ => rfl⟩, ?_, ?_, ?_, fun _ => ⟨value, rfl, ?_⟩⟩
  · rw [htext]
    refine (text_upTo_after hk hr).trans ?_
    simp [Layout.text, Layout.front, Layout.head]
  · rw [hgroup]
    exact hs₂
  · rw [hgroup]
    exact hs₃
  · rw [hgroup]
    exact hpadded

/-- A kind with a form reads layouts of that kind. -/
theorem exists_layout_of_here {kind : Kind} {form : Pattern} (hkind : kind.form? = some form)
    (h : form.here b start t.length t = some m) : ∃ x : Layout, x.ReadBy kind m := by
  cases kind <;> cases hkind
  · exact exists_layout_of_global h
  · exact exists_layout_of_uniform h

end Reading

/-! ## Reading a taken text again -/

section Again

variable {k k' : Cursor} {code : Text} {m : Match}

theorem run_closing_of_rest_eq_nil (h : k.rest = []) : Form.closing.run k some = none := by
  by_contra hsome
  obtain ⟨k', hk'⟩ := Option.ne_none_iff_exists'.1 hsome
  obtain ⟨_, t, ⟨v, e, -, he, rfl⟩, ht, -⟩ := exists_of_run rfl rfl hk'
  obtain rfl := accepts_lit.1 he
  simp [h] at ht

/-- The form of a kind takes the text of a match when nothing else is there. -/
theorem isSome_here_alone {kind : Kind} {form : Pattern} {b : Option Char} {start : Nat} {t : Text}
    (hkind : kind.form? = some form) (h : form.here b start t.length t = some m) :
    (form.here none 0 m.text.length m.text).isSome := by
  obtain ⟨k', hrun, -, htext, -⟩ := exists_run_of_here h
  rw [here, Option.isSome_map, htext]
  cases kind <;> cases hkind
  · refine isSome_run_alone (p := group 1 _) rfl
      (blind_notAhead (p := Form.closing) rfl (blind_some id)) ?_ ?_ rfl hrun
    · exact fun _ _ h => (Option.some.inj (run_notAhead_eq_some_iff.1 h).2).symm
    · intro k hk
      exact Option.isSome_iff_exists.2
        ⟨k, run_notAhead_eq_some_iff.2 ⟨run_closing_of_rest_eq_nil hk, rfl⟩⟩
  · exact isSome_run_alone rfl (blind_some id) (fun _ _ h => (Option.some.inj h).symm)
      (fun _ _ => rfl) rfl hrun

/-- What the form of a kind finds has a layout, and alone it is read with the same layout. -/
theorem exists_layout_of_sequence {kind : Kind} {form : Pattern} (hkind : kind.form? = some form)
    (h : m ∈ form.sequence code) :
    ∃ x : Layout, x.ReadBy kind m ∧ ∃ m', form.search m.text = some m' ∧ x.ReadBy kind m' := by
  obtain ⟨b, start, t, m₀, offset, hhere, rfl⟩ := exists_here_of_sequence h
  obtain ⟨x, hx⟩ := exists_layout_of_here hkind hhere
  obtain ⟨m', hm'⟩ := Option.isSome_iff_exists.1 (isSome_here_alone hkind hhere)
  obtain ⟨y, hy⟩ := exists_layout_of_here hkind hm'
  obtain ⟨r, hr⟩ := text_prefix_of_here hm'
  have htexts : y.text ++ r = x.text ++ [] := by
    rw [← hy.text, hr, hx.text, List.append_nil]
  obtain ⟨htype, hname, hvalue, rfl⟩ := Layout.unique htexts
  refine ⟨x, ⟨hx.suits, hx.text, hx.type, hx.name, hx.value⟩, m', search_eq_of_here hm', hx.suits,
    ?_, htype ▸ hy.type, hname ▸ hy.name, hvalue ▸ hy.value⟩
  rw [hy.text, ← List.append_nil y.text, htexts, List.append_nil]

end Again

end ShaderLink
