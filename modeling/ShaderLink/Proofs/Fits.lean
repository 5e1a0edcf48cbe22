import ShaderLink.Proofs.TypedNames

/-!
# Declarations fit their forms

The form of a kind takes a well-formed declaration of the kind from its first to its last character,
and its groups are the name and what is between the brackets (`Item.Regular.exists_here`).  The
search for a global variable also looks for braces behind it, and that for a function for the end of
the block (`FunctionText.closingIndex_eq`).
-/

namespace ShaderLink

open Text Pattern

variable {b : Option Char} {start : Nat} {r t u : Text} {m : Match} {p : Pattern}

/-- The form by which the declarations of a kind are found. -/
def Kind.searchForm : Kind → Pattern
  | .function => Form.functionHead
  | .global => Form.globalForm
  | .struct => Form.structForm
  | .define => Form.defineForm
  | .uniform => Form.uniformForm

/-- The match remembers what the declaration is made of. -/
def Item.ReadBy (m : Match) : Item → Prop
  | .function x => m.group 3 = x.name ∧ m.group 4 = x.inside
  | .global x => m.text = x.toLayout.text ∧ m.group 3 = x.toLayout.name.word
  | .uniform x => m.text = x.toLayout.text ∧ m.group 3 = x.toLayout.name.word
  | .struct x => m.text = x.text ∧ m.group 1 = x.text ∧ m.group 2 = x.name ∧ m.group 3 = x.inside
  | .define x => m.text = x.text ∧ m.group 1 = x.text ∧ m.group 2 = x.name

/-! ## Functions -/

theorem isSome_here_of_accepts (b : Option Char) (start : Nat) (r : Text) (hp : p.isPlain = true)
    (hu : p.Accepts u) :
    (p.here b start (u ++ r).length (u ++ r)).isSome := by
  have hk : Cursor.Counts ⟨b, u ++ r, (u ++ r).length, []⟩ := rfl
  rw [here, Option.isSome_map]
  exact (isSome_run_iff hp (blind_some id) hk).2 ⟨u, r, hu, rfl, rfl⟩

theorem accepts_functionHead {w g w' g' s q : Text} (hw : IsIdentifier w) (hg : IsGap g)
    (hw' : IsIdentifier w') (hg' : g'.AllBlank) (hq : ')' ∉ q) (hs : s.AllBlank) :
    Form.functionHead.Accepts (spaced [(w, g), (w', g')] ++ '(' :: (q ++ ')' :: (s ++ ['{']))) := by
  have htext : spaced [(w, g), (w', g')] ++ '(' :: (q ++ ')' :: (s ++ ['{'])) =
      w ++ g ++ w' ++ g' ++ ['('] ++ q ++ [')'] ++ s ++ ['{'] := by simp
  exact ⟨_, _, ⟨_, _, ⟨_, _, ⟨_, _, ⟨_, _, ⟨_, _, ⟨_, _, ⟨_, _, accepts_identifier.2 hw,
    accepts_gap.2 hg, rfl⟩, accepts_identifier.2 hw', rfl⟩, hg', rfl⟩, accepts_lit.2 rfl, rfl⟩,
    noneOf_of_not_mem rfl hq, rfl⟩, accepts_lit.2 rfl, rfl⟩, hs, rfl⟩, accepts_lit.2 rfl, htext⟩

theorem FunctionText.exists_here (x : FunctionText) (hx : x.precision = []) (r : Text) :
    ∃ m, Form.functionHead.here b start (x.text ++ r).length (x.text ++ r) = some m ∧
      (Item.function x).ReadBy m := by
  have hwords : x.words = [(x.type, x.gap), (x.name, x.space)] := by
    rw [words, hx]
    rfl
  have hclose : ')' ∉ x.inside := x.not_mem_inside (by decide) (by decide)
  have htext : x.text ++ r = (spaced [(x.type, x.gap), (x.name, x.space)] ++
      '(' :: (x.inside ++ ')' :: (x.between ++ ['{']))) ++ (x.body ++ '}' :: r) := by
    rw [text, hwords]
    simp
  have haccepts := accepts_functionHead x.isIdentifier_type x.isGap x.isIdentifier_name
    x.isBlank_space hclose x.isBlank_between
  obtain ⟨m, hm⟩ := Option.isSome_iff_exists.1
    (isSome_here_of_accepts b start (x.body ++ '}' :: r) rfl haccepts)
  rw [← htext] at hm
  refine ⟨m, hm, ?_⟩
  obtain ⟨w, g, w', g', p, s, r', hw, hg, hw', hg', hp, -, ht, -, -, hthree, hfour⟩ :=
    exists_of_function hm
  have hstop : isWordOrBlank '(' = false := by decide
  have hsplit : spaced [(x.type, x.gap), (x.name, x.space)] ++
      '(' :: (x.inside ++ ')' :: (x.between ++ '{' :: (x.body ++ '}' :: r))) =
      spaced [(w, g), (w', g')] ++ '(' :: (p ++ ')' :: (s ++ '{' :: r')) := by
    rw [← ht, htext]
    simp
  obtain ⟨hnames, htail⟩ := Spaced.unique
    (spaced_pair x.isIdentifier_type x.isGap x.isIdentifier_name x.isBlank_space)
    (spaced_pair hw hg hw' hg') (stops_cons hstop _) (stops_cons hstop _) hsplit
  obtain ⟨rfl, -⟩ := Prod.mk.inj (List.cons.inj (List.cons.inj hnames).2).1
  obtain ⟨rfl, -⟩ := first_unique hclose hp (List.cons.inj htail).2
  exact ⟨hthree, hfour⟩

/-! ## Uniforms and global variables -/

theorem accepts_sized (w : SizedWord) (n : Nat) : (Form.sized n).Accepts w.text :=
  ⟨w.word, w.size, accepts_identifier.2 w.isIdentifier, w.isSized_size, rfl⟩

theorem Opens.accepts_globalLead {ks : List (Text × Text)} (h : Opens .global ks u) :
    Form.globalLead.Accepts u := by
  obtain ⟨hks, hopening, rfl⟩ := h
  simp only [Kind.openings, List.mem_cons, List.not_mem_nil, or_false, List.map_eq_nil_iff,
    List.map_eq_singleton_iff] at hopening
  rcases hopening with rfl | ⟨⟨w, g⟩, rfl, rfl⟩
  · exact Or.inr rfl
  · have hg := (hks _ List.mem_cons_self).2
    exact Or.inl ⟨_, g, accepts_phrase.2 rfl, accepts_gap.2 hg, by simp⟩

theorem Opens.accepts_uniformLead {ks : List (Text × Text)} (h : Opens .uniform ks u) :
    Form.uniformLead.Accepts u := by
  obtain ⟨hks, hopening, rfl⟩ := h
  have hprecision : ∀ {w : Text}, w ∈ ["lowp".toList, "mediump".toList, "highp".toList] →
      (either (phrase "lowp") (either (phrase "mediump") (phrase "highp"))).Accepts w := by
    intro w hw
    simpa using hw
  have hcases : ks.map Prod.fst = ["uniform".toList] ∨
      ∃ w ∈ ["lowp".toList, "mediump".toList, "highp".toList],
        ks.map Prod.fst = ["uniform".toList, w] := by
    simpa [Kind.openings] using hopening
  rcases hcases with h | ⟨w, hw, h⟩
  · obtain ⟨⟨_, g⟩, rfl, rfl⟩ := List.map_eq_singleton_iff.1 h
    have hg := (hks _ List.mem_cons_self).2
    exact ⟨_, [], ⟨_, g, accepts_phrase.2 rfl, accepts_gap.2 hg, rfl⟩, Or.inr rfl, by simp⟩
  · obtain ⟨⟨_, g⟩, ps, rfl, rfl, hps⟩ := List.map_eq_cons_iff.1 h
    obtain ⟨⟨_, g'⟩, rfl, rfl⟩ := List.map_eq_singleton_iff.1 hps
    simp only [List.forall_mem_cons] at hks
    exact ⟨_, _, ⟨_, g, accepts_phrase.2 rfl, accepts_gap.2 hks.1.2, rfl⟩,
      Or.inl ⟨_, g', hprecision hw, accepts_gap.2 hks.2.1.2, rfl⟩, by simp⟩

/-- A uniform or a global variable that is taken is taken as a whole, with its name. -/
theorem Layout.exists_here {form : Pattern} (x : Layout) (kind : Kind)
    (hkind : kind.form? = some form)
    (h : (form.here b start (x.text ++ r).length (x.text ++ r)).isSome) :
    ∃ m, form.here b start (x.text ++ r).length (x.text ++ r) = some m ∧ m.text = x.text ∧
      m.group 3 = x.name.word := by
  obtain ⟨m, hm⟩ := Option.isSome_iff_exists.1 h
  obtain ⟨y, hy⟩ := exists_layout_of_here hkind hm
  obtain ⟨r', hr'⟩ := text_prefix_of_here hm
  rw [hy.text] at hr'
  obtain ⟨-, hname, -, rfl⟩ := Layout.unique hr'
  exact ⟨m, hm, hy.text.trans (List.append_cancel_right hr'), hy.name.trans hname⟩

theorem Layout.accepts_front (x : Layout) (h : p.Accepts x.head) :
    (p ++ Form.sized 2 ++ Pattern.gap ++ Form.sized 3 ++ blanks).Accepts x.front :=
  ⟨_, _, ⟨_, _, ⟨_, _, ⟨_, _, h, accepts_sized x.type 2, rfl⟩, accepts_gap.2 x.isGap, rfl⟩,
    accepts_sized x.name 3, rfl⟩, x.isBlank_space, rfl⟩

theorem UniformText.accepts_text (x : UniformText) : Form.uniformForm.Accepts x.toLayout.text := by
  have hlead : Form.uniformLead.Accepts x.head := Opens.accepts_uniformLead
    ⟨x.isKeyword, x.opening, rfl⟩
  rw [Layout.text, x.value_eq]
  exact ⟨_, _, ⟨_, [], x.accepts_front hlead, Or.inr rfl, rfl⟩, accepts_lit.2 rfl,
    by simp [Layout.ending]⟩

/-- What stands behind the name of a global variable, its value included. -/
def Form.globalCore : Pattern :=
  optional (phrase "const" ++ gap) ++ sized 2 ++ gap ++ sized 3 ++ blanks ++ lit '=' ++
    blanks ++ group 4 (few1 (noneOf ";")) ++ blanks ++ lit ';'

theorem GlobalText.accepts_text (x : GlobalText) (hx : (Item.global x).Supported) :
    Form.globalCore.Accepts x.toLayout.text := by
  have hlead : Form.globalLead.Accepts x.head := Opens.accepts_globalLead ⟨x.isKeyword, hx, rfl⟩
  have hne : x.init ≠ [] := by
    obtain ⟨c, hc, -⟩ := x.exists_not_blank
    exact List.ne_nil_of_mem hc
  have hinit := accepts_few1_noneOf.2 ⟨hne, x.semicolon_not_mem x.init x.value_eq⟩
  rw [Layout.text, x.value_eq]
  exact ⟨_, _, ⟨_, [], ⟨_, _, ⟨_, [], ⟨_, _, x.accepts_front hlead, accepts_lit.2 rfl, rfl⟩,
    List.forall_mem_nil _, rfl⟩, hinit, rfl⟩, List.forall_mem_nil _, rfl⟩, accepts_lit.2 rfl,
    by simp [Layout.ending]⟩

/-- A closing brace comes behind an opening one only. -/
def Opened (t : Text) : Prop := ∀ y z, t = y ++ '}' :: z → '{' ∈ y

theorem run_closing_eq_none {k : Cursor} (h : Opened k.rest) : Form.closing.run k some = none := by
  refine Option.eq_none_iff_forall_not_mem.2 fun k' hk' => ?_
  obtain ⟨_, z, ⟨y, e, hy, he, rfl⟩, hrest, -⟩ := exists_of_run rfl rfl hk'
  obtain rfl := accepts_lit.1 he
  exact not_mem_of_noneOf (s := "\x7b") rfl hy (h y z (by simpa using hrest))

theorem GlobalText.isSome_here (x : GlobalText) (hx : (Item.global x).Supported) (hr : Opened r) :
    (Form.globalForm.here b start (x.toLayout.text ++ r).length (x.toLayout.text ++ r)).isSome := by
  let k : Cursor := ⟨b, x.toLayout.text ++ r, (x.toLayout.text ++ r).length, []⟩
  have hk : k.Counts := rfl
  have hrun : ((group 1 Form.globalCore).run k fun k₁ =>
      (notAhead Form.closing).run k₁ some).isSome := by
    refine (isSome_run_iff rfl (blind_notAhead rfl (blind_some id)) hk).2
      ⟨x.toLayout.text, r, x.accepts_text hx, rfl, ?_⟩
    refine Option.isSome_iff_exists.2 ⟨_, run_notAhead_eq_some_iff.2 ⟨run_closing_eq_none ?_, rfl⟩⟩
    rwa [Cursor.rest_after_of_eq rfl]
  exact (Option.isSome_map ..).trans hrun

/-! ## Structs -/

theorem accepts_structCore {g n s f s' : Text} (hg : IsGap g) (hn : IsIdentifier n)
    (hs : s.AllBlank) (hf : f ≠ []) (hclose : '}' ∉ f) (hs' : s'.AllBlank) :
    Form.structCore.Accepts (structText g n s f s') := by
  have htext : structText g n s f s' =
      "struct".toList ++ g ++ n ++ s ++ ['{'] ++ f ++ ['}'] ++ s' ++ [';'] := by
    simp [structText]
  exact ⟨_, _, ⟨_, _, ⟨_, _, ⟨_, _, ⟨_, _, ⟨_, _, ⟨_, _, ⟨_, _, accepts_phrase.2 rfl,
    accepts_gap.2 hg, rfl⟩, accepts_identifier.2 hn, rfl⟩, hs, rfl⟩, accepts_lit.2 rfl, rfl⟩,
    accepts_many1_one.2 ⟨hf, noneOf_of_not_mem rfl hclose⟩, rfl⟩, accepts_lit.2 rfl, rfl⟩, hs',
    rfl⟩, accepts_lit.2 rfl, htext⟩

theorem StructText.text_eq (x : StructText) :
    x.text = structText x.gap x.name x.space x.inside x.between := rfl

theorem structText_unique {g n s f s' g₂ n₂ s₂ f₂ s₂' r r₂ : Text} (hg : IsGap g) (hg₂ : IsGap g₂)
    (hn : IsIdentifier n) (hn₂ : IsIdentifier n₂) (hs : s.AllBlank) (hs₂ : s₂.AllBlank)
    (hf : '}' ∉ f) (hf₂ : '}' ∉ f₂) (hs' : s'.AllBlank) (hs₂' : s₂'.AllBlank)
    (h : structText g n s f s' ++ r = structText g₂ n₂ s₂ f₂ s₂' ++ r₂) :
    n = n₂ ∧ f = f₂ ∧ r = r₂ := by
  have hstruct : IsIdentifier "struct".toList := by decide
  have hstop : isWordOrBlank '{' = false := by decide
  have hend : ∀ r : Text, ∀ c ∈ (';' :: r).head?, isBlank c = false := by
    rintro r _ ⟨⟩
    decide
  have hcut : ∀ {ps : List (Text × Text)} {f s' r : Text},
      (spaced ps ++ '{' :: (f ++ '}' :: (s' ++ [';']))) ++ r =
        spaced ps ++ '{' :: (f ++ '}' :: (s' ++ ';' :: r)) := by
    intro ps f s' r
    simp
  rw [structText, structText, hcut, hcut] at h
  obtain ⟨hwords, hbrace⟩ := Spaced.unique (spaced_pair hstruct hg hn hs)
    (spaced_pair hstruct hg₂ hn₂ hs₂) (stops_cons hstop _) (stops_cons hstop _) h
  obtain ⟨hfields, htail⟩ := first_unique hf hf₂ (List.cons.inj hbrace).2
  obtain ⟨-, hrest⟩ := prefix_unique hs' hs₂' (hend r) (hend r₂) htail
  exact ⟨(Prod.mk.inj (List.cons.inj (List.cons.inj hwords).2).1).1, hfields,
    (List.cons.inj hrest).2⟩

theorem StructText.exists_here (x : StructText) (hb : BeginsLine b) (r : Text) :
    ∃ m, Form.structForm.here b start (x.text ++ r).length (x.text ++ r) = some m ∧
      (Item.struct x).ReadBy m := by
  have hclose : '}' ∉ x.inside := x.not_mem_inside (by decide) (by decide)
  have hinside : x.inside ≠ [] := by
    obtain ⟨f, fs, hfs⟩ := List.exists_cons_of_ne_nil x.fields_ne
    simp [inside, hfs]
  let k : Cursor := ⟨b, x.text ++ r, (x.text ++ r).length, []⟩
  have hk : k.Counts := rfl
  have hrun : ((many (oneOf " \t") ++ group 1 Form.structCore).run k some).isSome := by
    refine (isSome_run_iff rfl (blind_some id) hk).2 ⟨x.text, r, ?_, rfl, rfl⟩
    exact ⟨[], _, accepts_indent.2 (List.forall_mem_nil _),
      accepts_structCore x.isGap x.isIdentifier_name x.isBlank_space hinside hclose
        x.isBlank_between, rfl⟩
  have hsome : (Form.structForm.here b start (x.text ++ r).length (x.text ++ r)).isSome := by
    rcases hb with rfl | rfl <;> exact (Option.isSome_map ..).trans hrun
  obtain ⟨m, hm⟩ := Option.isSome_iff_exists.1 hsome
  obtain ⟨-, i, g, n, s, f, s', r', hi, hg, hn, hs, hf, hs', ht, -, htext, hone, htwo, hthree⟩ :=
    exists_of_struct hm
  obtain rfl := hi.eq_nil (by decide) ht
  obtain ⟨hname, hfields, rfl⟩ := structText_unique x.isGap hg x.isIdentifier_name hn
    x.isBlank_space hs hclose hf x.isBlank_between hs' ht
  have hsame : x.text = structText g n s f s' := List.append_cancel_right ht
  exact ⟨m, hm, htext.trans hsame.symm, hone.trans hsame.symm, htwo.trans hname.symm,
    hthree.trans hfields.symm⟩

/-! ## Macros -/

theorem MacroText.text_eq (x : MacroText) :
    x.text = macroText x.gap x.name [] x.gap' x.content := rfl

theorem EndsLine.not_mem_head (h : EndsLine t) : ∀ c ∈ t.head?, (c != '\n') = false := by
  rcases h with rfl | ⟨t, rfl⟩
  · exact nofun
  · rintro _ ⟨⟩
    rfl

theorem MacroText.exists_here (x : MacroText) (hx : (Item.define x).Supported) (hb : BeginsLine b)
    (hr : EndsLine r) :
    ∃ m, Form.defineForm.here b start (x.text ++ r).length (x.text ++ r) = some m ∧
      (Item.define x).ReadBy m := by
  obtain ⟨m, hm⟩ := Option.isSome_iff_exists.1
    (isSome_here_macroText start hb x.isLineGap x.isIdentifier_name (Or.inl rfl)
      x.isLineGap' hx hr (t := x.text ++ r) rfl)
  obtain ⟨-, i, g, n, p, g', c, r', hi, hg, hn, hp, hg', hc, ht, hr', -, htext, hone, htwo, -⟩ :=
    exists_of_define hm
  obtain rfl := hi.eq_nil (by decide) ht
  have hcut : macroHead x.gap x.name [] ++ (x.gap' ++ x.content ++ r) =
      macroHead g n p ++ (g' ++ c ++ r') := by
    simpa only [x.text_eq, macroText_eq, List.append_assoc, List.nil_append] using ht
  obtain ⟨hname, -, hbehind⟩ := macroHead_unique x.isLineGap hg x.isIdentifier_name hn
    (Or.inl rfl) hp (by simpa using x.isLineGap'.isBlank_head (x.content ++ r))
    (by simpa using hg'.isBlank_head (c ++ r')) hcut
  have hline : ∀ {g c : Text}, IsLineGap g → '\n' ∉ c → ∀ d ∈ g ++ c, (d != '\n') = true := by
    intro g c hg hc d hd
    refine bne_iff_ne.2 ?_
    rintro rfl
    exact (List.mem_append.1 hd).elim hg.not_mem hc
  obtain ⟨-, rfl⟩ := prefix_unique (hline x.isLineGap' hx) (hline hg' hc) hr.not_mem_head
    hr'.not_mem_head hbehind
  have hsame : x.text = macroText g n p g' c := List.append_cancel_right ht
  exact ⟨m, hm, htext.trans hsame.symm, hone.trans hsame.symm, htwo.trans hname.symm⟩

/-! ## Braces -/

variable {a : Text} {d : Nat} {i : Item} {es : List Slot}

theorem opened_of_not_mem (h : '}' ∉ t) : Opened t := by
  rintro y z rfl
  exact absurd (List.mem_append_right y List.mem_cons_self) h

theorem Opened.append (ht : Opened t) (hu : Opened u) : Opened (t ++ u) := by
  intro y z h
  rcases List.append_eq_append_iff.1 h with ⟨v, rfl, hv⟩ | ⟨v, rfl, hv⟩
  · exact List.mem_append_right t (hu v z hv)
  · cases v with
    | nil => simpa using hu [] z hv.symm
    | cons c v =>
      obtain ⟨rfl, -⟩ := List.cons.inj hv
      exact ht y v rfl

theorem opened_brace (t : Text) : Opened ('{' :: t) := by
  intro y z h
  cases y with
  | nil => exact absurd (List.cons.inj h).1 (by decide)
  | cons c y =>
    obtain ⟨rfl, -⟩ := List.cons.inj h
    exact List.mem_cons_self

/-- In a declaration that is no function a closing brace does not come first. -/
theorem Item.opened (h : i.kind ≠ .function) : Opened i.text := by
  have hclose : isWordOrBlank '}' = false := by decide
  have hwords : '}' ∉ spaced i.words := not_mem_of_isWordOrBlank hclose i.spaced_words.forall_mem
  cases i with
  | function x => exact absurd rfl h
  | global x =>
    rw [Item.text_eq]
    have hvalue : '}' ∉ '=' :: (x.init ++ [';']) := by simp [x.closing_not_mem]
    exact (opened_of_not_mem hwords).append (opened_of_not_mem hvalue)
  | uniform x =>
    rw [Item.text_eq]
    have hend : '}' ∉ [';'] := by decide
    exact (opened_of_not_mem hwords).append (opened_of_not_mem hend)
  | struct x => exact (opened_of_not_mem hwords).append (opened_brace _)
  | define x =>
    exact opened_of_not_mem (x.not_mem_text hclose (by decide) x.closing_not_mem)

theorem opened_following (h : ∀ e ∈ es, e.2 = true → e.1.kind ≠ .function) :
    Opened (following es) := by
  induction es with
  | nil => exact opened_of_not_mem List.not_mem_nil
  | cons e es ih =>
    obtain ⟨he, hes⟩ := List.forall_mem_cons.1 h
    have hline : Opened ['\n'] := opened_of_not_mem (by decide)
    refine hline.append (Opened.append ?_ (ih hes))
    obtain ⟨i, shown⟩ := e
    cases shown with
    | true => exact shown_true i ▸ Item.opened (he rfl)
    | false => exact opened_of_not_mem ((allBlank_shown_false i).not_mem (by decide))

/-- Behind what is closed as often as opened, what was open before is still open. -/
theorem Balanced.closingLength_append (h : Balanced t) (hd : 1 ≤ d) (r : Text) :
    closingLength '{' '}' d (t ++ r) = (closingLength '{' '}' d r).map (· + t.length) := by
  induction h generalizing d r with
  | nil => simp
  | @other c t hopen hclose ht ih =>
    rw [List.cons_append, closingLength, if_neg hopen, if_neg hclose, ih hd, Option.map_map]
    exact Option.map_congr fun n _ => rfl
  | @block t u ht hu iht ihu =>
    have hstep : closingLength '{' '}' (d + 1) ('}' :: (u ++ r)) =
        (closingLength '{' '}' d (u ++ r)).map (· + 1) := by
      rw [closingLength, if_neg (by decide), if_pos rfl, if_neg (by omega)]
      rfl
    rw [List.cons_append, List.append_assoc, closingLength, if_pos rfl, iht (by omega),
      List.cons_append, hstep, ihu hd, Option.map_map, Option.map_map, Option.map_map]
    refine Option.map_congr fun n _ => ?_
    simp
    omega

/-- What stands in front of the brace that opens the body. -/
def FunctionText.front (x : FunctionText) : Text :=
  spaced x.words ++ '(' :: (x.inside ++ ')' :: x.between)

theorem FunctionText.text_eq (x : FunctionText) : x.text = x.front ++ '{' :: (x.body ++ ['}']) := by
  simp [text, front]

theorem FunctionText.brace_not_mem (x : FunctionText) : '{' ∉ x.front := by
  have hbrace : isWordOrBlank '{' = false := by decide
  have hwords : '{' ∉ spaced x.words :=
    not_mem_of_isWordOrBlank hbrace (Item.function x).spaced_words.forall_mem
  simp only [front, List.mem_append, List.mem_cons, not_or]
  exact ⟨hwords, by decide, x.not_mem_inside hbrace (by decide), by decide,
    x.isBlank_between.not_mem (by decide)⟩

/-- The block of a function ends where the function does. -/
theorem FunctionText.closingIndex_eq (x : FunctionText) (a r : Text) :
    closingIndex '{' '}' (a ++ (x.text ++ r)) a.length = .ok (a.length + x.text.length) := by
  have hcut : x.text ++ r = x.front ++ '{' :: (x.body ++ '}' :: r) := by
    rw [x.text_eq]
    simp
  have hfirst : (x.text ++ r).findIdx? (· == '{') = some x.front.length := by
    have hnone : x.front.findIdx? (· == '{') = none := by
      refine List.findIdx?_eq_none_iff.2 fun c hc => ?_
      refine beq_eq_false_iff_ne.2 ?_
      rintro rfl
      exact x.brace_not_mem hc
    rw [hcut, List.findIdx?_append, hnone, List.findIdx?_cons]
    simp
  have hlength : closingLength '{' '}' 0 ('{' :: (x.body ++ '}' :: r)) =
      some (x.body.length + 2) := by
    have hclose : closingLength '{' '}' 1 ('}' :: r) = some 1 := rfl
    rw [closingLength, if_pos rfl, x.balanced.closingLength_append le_rfl, hclose]
    simp
    omega
  unfold closingIndex
  rw [offset_natCast]
  simp only [List.drop_left, hfirst]
  rw [← List.drop_drop, List.drop_left, hcut, List.drop_left, hlength]
  simp [x.text_eq]
  omega

theorem Item.trim_text (i : Item) : i.text.trim = i.text := by
  refine trim_eq_self ?_ i.isBlank_last
  obtain ⟨c, t, htext, hc, -⟩ := i.exists_head
  intro d hd
  rw [htext] at hd
  cases hd
  exact hc

/-! ## Declarations -/

theorem endsLine_following (es : List Slot) : EndsLine (following es) := by
  cases es with
  | nil => exact Or.inl rfl
  | cons e es => exact Or.inr ⟨_, following_cons e es⟩

/-- The form of its kind takes a declaration as a whole, if no function is behind it. -/
theorem Item.Regular.exists_here (hi : i.Regular) (hb : BeginsLine b)
    (hes : i.kind = .global → ∀ e ∈ es, e.2 = true → e.1.kind ≠ .function) :
    ∃ m, i.kind.searchForm.here b start (i.text ++ following es).length (i.text ++ following es) =
      some m ∧ m.start = start ∧ i.ReadBy m := by
  have hsome : ∃ m, i.kind.searchForm.here b start (i.text ++ following es).length
      (i.text ++ following es) = some m ∧ i.ReadBy m := by
    cases i with
    | function x => exact x.exists_here hi.supported _
    | global x =>
      have hopened : Opened (following es) := opened_following (hes rfl)
      exact x.toLayout.exists_here .global rfl (x.isSome_here hi.supported hopened)
    | uniform x =>
      exact x.toLayout.exists_here .uniform rfl
        (isSome_here_of_accepts b start _ rfl x.accepts_text)
    | struct x => exact x.exists_here hb _
    | define x => exact x.exists_here hi.supported hb (endsLine_following es)
  obtain ⟨m, hm, hread⟩ := hsome
  exact ⟨m, hm, (exists_run_of_here hm).choose_spec.2.1, hread⟩

end ShaderLink
