import ShaderLink.Proofs.Items

/-!
# Words in front of a delimiter

Every declaration is words, a delimiter and what is behind it (`Item.text_eq`).  Where a form finds
words and a delimiter in a module, they are words of one declaration, in front of its delimiter or
all behind it, or they begin in a macro and go on to the delimiter of the next declaration
(`Leads.cases`).
-/

namespace ShaderLink

open Text

/-! ## Words, delimiters and what is behind -/

/-- The words in front of the equals sign or the semicolon. -/
def Layout.words (x : Layout) : List (Text × Text) :=
  x.keywords ++ [(x.type.text, x.gap), (x.name.text, x.space)]

/-- The first character behind the words of a declaration of the kind. -/
def Kind.delimiter : Kind → Char
  | .function => '('
  | .global => '='
  | .uniform => ';'
  | .struct => '{'
  | .define => '#'

theorem Kind.delimiter_injective : Function.Injective Kind.delimiter := by
  intro k k'
  cases k <;> cases k' <;> decide

namespace Item

/-- The words with which the declaration begins. -/
def words : Item → List (Text × Text)
  | function x => x.words
  | global x => x.toLayout.words
  | uniform x => x.toLayout.words
  | struct x => x.words
  | define _ => []

/-- What is behind the delimiter. -/
def behind : Item → Text
  | function x => x.inside ++ ')' :: (x.between ++ '{' :: (x.body ++ ['}']))
  | global x => x.init ++ [';']
  | uniform _ => []
  | struct x => x.inside ++ '}' :: (x.between ++ [';'])
  | define x => "define".toList ++ (x.gap ++ (x.name ++ (x.gap' ++ x.content)))

end Item

theorem Layout.front_eq (x : Layout) : x.front = spaced x.words := by
  simp [front, head, words, spaced]

theorem Item.text_eq (i : Item) : i.text = spaced i.words ++ i.kind.delimiter :: i.behind := by
  cases i with
  | function x => rfl
  | global x =>
    show x.toLayout.text = spaced x.toLayout.words ++ '=' :: (x.init ++ [';'])
    rw [Layout.text, x.value_eq, Layout.front_eq]
    rfl
  | uniform x =>
    show x.toLayout.text = spaced x.toLayout.words ++ [';']
    rw [Layout.text, x.value_eq, Layout.front_eq]
    rfl
  | struct x => rfl
  | define x => rfl

theorem Spaced.cons {w g : Text} {ps : List (Text × Text)} (hw : IsIdentifier w) (hg : IsGap g)
    (h : Spaced ps) : Spaced ((w, g) :: ps) :=
  ⟨⟨hw.1, fun c hc => isSized_of_isWord (hw.2 c hc)⟩, hg.2, fun _ => hg.1, h⟩

theorem spaced_of_keywords {ks ps : List (Text × Text)}
    (hks : ∀ k ∈ ks, IsIdentifier k.1 ∧ IsGap k.2) (h : Spaced ps) : Spaced (ks ++ ps) := by
  induction ks with
  | nil => exact h
  | cons k ks ih =>
    obtain ⟨hk, hks⟩ := List.forall_mem_cons.1 hks
    exact (ih hks).cons hk.1 hk.2

theorem Layout.spaced_words (x : Layout) : Spaced x.words := by
  refine spaced_of_keywords x.isKeyword ?_
  exact ⟨⟨x.type.text_ne_nil, x.type.isSized_text⟩, x.isGap.2, fun _ => x.isGap.1,
    ⟨x.name.text_ne_nil, x.name.isSized_text⟩, x.isBlank_space, fun h => absurd rfl h, trivial⟩

theorem spaced_last {w g : Text} (hw : IsIdentifier w) (hg : g.AllBlank) : Spaced [(w, g)] :=
  ⟨⟨hw.1, fun c hc => isSized_of_isWord (hw.2 c hc)⟩, hg, fun h => absurd rfl h, trivial⟩

theorem FunctionText.isIdentifier_precision (x : FunctionText) :
    ∀ k ∈ x.precision, IsIdentifier k.1 ∧ IsGap k.2 := by
  intro k hk
  refine ⟨?_, x.isGap_precision k hk⟩
  have hwords : (precisions.flatten.all fun w => decide (IsIdentifier w)) = true := by decide
  have hmem : k.1 ∈ precisions.flatten :=
    List.mem_flatten.2 ⟨_, x.opening, List.mem_map_of_mem hk⟩
  exact of_decide_eq_true (List.all_eq_true.1 hwords _ hmem)

theorem Item.spaced_words (i : Item) : Spaced i.words := by
  cases i with
  | function x =>
    exact spaced_of_keywords x.isIdentifier_precision
      ((spaced_last x.isIdentifier_name x.isBlank_space).cons x.isIdentifier_type x.isGap)
  | global x => exact x.toLayout.spaced_words
  | uniform x => exact x.toLayout.spaced_words
  | struct x =>
    have hstruct : IsIdentifier "struct".toList := by decide
    exact (spaced_last x.isIdentifier_name x.isBlank_space).cons hstruct x.isGap
  | define x => trivial

theorem Kind.isWordOrBlank_delimiter (k : Kind) : isWordOrBlank k.delimiter = false := by
  cases k <;> rfl

/-- Only a macro may end like a word. -/
theorem Item.exists_of_behind {i : Item} (hi : i.kind ≠ .define) (hne : i.behind ≠ []) :
    ∃ u c, i.behind = u ++ [c] ∧ isWordOrBlank c = false := by
  cases i with
  | function x =>
    refine ⟨x.inside ++ ')' :: (x.between ++ '{' :: x.body), '}', ?_, by decide⟩
    simp [behind]
  | global x => exact ⟨x.init, ';', rfl, by decide⟩
  | uniform x => exact absurd rfl hne
  | struct x =>
    refine ⟨x.inside ++ '}' :: x.between, ';', ?_, by decide⟩
    simp [behind]
  | define x => exact absurd rfl hi

/-! ## What follows a declaration -/

/-- The declarations that follow, each on a line of its own. -/
def following (es : List Slot) : Text := es.flatMap fun e => '\n' :: e.shown

@[simp] theorem following_nil : following [] = [] := rfl

@[simp] theorem following_cons (e : Slot) (es : List Slot) :
    following (e :: es) = '\n' :: (e.shown ++ following es) := List.cons_append ..

theorem sourceOf_cons (e : Slot) (es : List Slot) :
    sourceOf (e :: es) = e.shown ++ following es := by
  induction es generalizing e with
  | nil => simp [sourceOf, Text.join]
  | cons e' es ih =>
    rw [following_cons, ← ih e']
    simp [sourceOf, Text.join, List.intercalate]

theorem shown_true (i : Item) : Slot.shown (i, true) = i.text := if_pos rfl

theorem shown_false (i : Item) :
    Slot.shown (i, false) = List.replicate i.text.length ' ' := if_neg Bool.false_ne_true

theorem isBlank_newline : isBlank '\n' = true := by decide

theorem isBlank_space : isBlank ' ' = true := by decide

theorem allBlank_shown_false (i : Item) : AllBlank (Slot.shown (i, false)) := by
  intro c hc
  rw [shown_false] at hc
  rw [List.eq_of_mem_replicate hc]
  exact isBlank_space

/-- After blanks comes the next declaration, if there is one. -/
theorem following_cases (es : List Slot) : AllBlank (following es) ∨
    ∃ g i r, IsGap g ∧ (i, true) ∈ es ∧ following es = g ++ (i.text ++ r) := by
  induction es with
  | nil => exact Or.inl (List.forall_mem_nil _)
  | cons e es ih =>
    obtain ⟨i, b⟩ := e
    have hline : IsGap ['\n'] := ⟨List.cons_ne_nil _ _, by simpa [AllBlank] using isBlank_newline⟩
    cases b with
    | true =>
      refine Or.inr ⟨['\n'], i, following es, hline, List.mem_cons_self, ?_⟩
      rw [following_cons, shown_true]
      rfl
    | false =>
      have hblank := allBlank_shown_false i
      rcases ih with h | ⟨g, j, r, hg, hj, h⟩
      · refine Or.inl ?_
        rw [following_cons]
        exact List.forall_mem_cons.2 ⟨isBlank_newline, List.forall_mem_append.2 ⟨hblank, h⟩⟩
      · refine Or.inr ⟨'\n' :: (Slot.shown (i, false) ++ g), j, r, ⟨List.cons_ne_nil _ _, ?_⟩,
          List.mem_cons_of_mem _ hj, ?_⟩
        · exact List.forall_mem_cons.2 ⟨isBlank_newline, List.forall_mem_append.2 ⟨hblank, hg.2⟩⟩
        · rw [following_cons, h]
          simp

/-! ## Leads -/

/-- The text begins with words, and then comes a character that is neither part of a word nor
blank. -/
structure Leads (qs : List (Text × Text)) (d : Char) (r t : Text) : Prop where
  spaced : Spaced qs
  ne_nil : qs ≠ []
  stops : isWordOrBlank d = false
  eq : t = ShaderLink.spaced qs ++ d :: r

variable {qs ws : List (Text × Text)} {a b f r t y beh : Text} {c d d₀ : Char} {es : List Slot}

/-- The last character is in every part at the end. -/
theorem exists_concat (h : t ++ [c] = y ++ b) (hb : b ≠ []) : ∃ z, b = z ++ [c] ∧ t = y ++ z := by
  obtain rfl | ⟨z, d, rfl⟩ := List.eq_nil_or_concat b
  · exact absurd rfl hb
  · rw [List.concat_eq_append, ← List.append_assoc] at h
    obtain ⟨rfl, hlast⟩ := List.append_inj' h rfl
    exact ⟨z, by rw [List.concat_eq_append, hlast], rfl⟩

namespace Leads

theorem opensSized (h : Leads qs d r t) : opensSized t = true :=
  h.eq ▸ h.spaced.opensSized h.ne_nil _

/-- Words are found in front of the delimiter, the first of them perhaps cut off, or behind it. -/
theorem front_or_behind (hws : Spaced ws) (hd₀ : isWordOrBlank d₀ = false)
    (hab : ShaderLink.spaced ws ++ d₀ :: beh = a ++ b) (hb : b ≠ []) (h : Leads qs d r (b ++ f)) :
    (∃ pre w v g post, ws = pre ++ (w ++ v, g) :: post ∧ qs = (v, g) :: post ∧ d = d₀ ∧
      r = beh ++ f ∧ a = ShaderLink.spaced pre ++ w) ∨
    ∃ y, beh = y ++ b ∧ a = ShaderLink.spaced ws ++ d₀ :: y := by
  have hopen : ShaderLink.opensSized b = true := opensSized_append hb f ▸ h.opensSized
  rcases List.append_eq_append_iff.1 hab with ⟨y, rfl, hy⟩ | ⟨z, hz, rfl⟩
  · cases y with
    | nil =>
      obtain rfl := hy
      rw [show ShaderLink.opensSized (d₀ :: beh) = isSized d₀ from rfl,
        isSized_of_not_isWordOrBlank hd₀] at hopen
      cases hopen
    | cons c y =>
      obtain ⟨rfl, rfl⟩ := List.cons.inj hy
      exact Or.inr ⟨y, rfl, rfl⟩
  · cases z with
    | nil =>
      rw [show ShaderLink.opensSized ([] ++ d₀ :: beh) = isSized d₀ from rfl,
        isSized_of_not_isWordOrBlank hd₀] at hopen
      cases hopen
    | cons c z =>
      obtain ⟨pre, w, v, g, post, rfl, hspaced, rfl, hcz⟩ := hws.exists_of_append hz hopen
      have heq : ShaderLink.spaced ((v, g) :: post) ++ d₀ :: (beh ++ f) =
          ShaderLink.spaced qs ++ d :: r := by
        rw [← h.eq, ← hcz]
        simp
      obtain ⟨rfl, ht⟩ := Spaced.unique hspaced h.spaced (stops_cons hd₀ _) (stops_cons h.stops _)
        heq
      obtain ⟨rfl, rfl⟩ := List.cons.inj ht
      exact Or.inl ⟨pre, w, v, g, post, rfl, rfl, rfl, rfl, rfl⟩

/-- The words and the character behind them lie in what has such a character. -/
theorem inside (h : Leads qs d r (b ++ f)) (hc : c ∈ b) (hstop : isWordOrBlank c = false) :
    ∃ r', b = ShaderLink.spaced qs ++ d :: r' ∧ r = r' ++ f := by
  rcases List.append_eq_append_iff.1 h.eq with ⟨u, hu, -⟩ | ⟨u, rfl, hu⟩
  · have hword := h.spaced.forall_mem c (hu ▸ List.mem_append_left u hc)
    rw [hstop] at hword
    cases hword
  · cases u with
    | nil =>
      rw [List.append_nil] at hc
      have hword := h.spaced.forall_mem c hc
      rw [hstop] at hword
      cases hword
    | cons e u =>
      obtain ⟨rfl, rfl⟩ := List.cons.inj hu
      exact ⟨u, rfl, rfl⟩

/-- Words that do not end in what there is go on with those of the next declaration. -/
theorem spill (hb : ∀ c ∈ b, isWordOrBlank c = true) (hne : b ≠ [])
    (h : Leads qs d r (b ++ following es)) : ∃ i g pre, (i, true) ∈ es ∧ d = i.kind.delimiter ∧
      IsGap g ∧ pre ≠ [] ∧ qs = pre ++ i.words ∧ ShaderLink.spaced pre = b ++ g := by
  rcases following_cases es with hblank | ⟨g, i, r', hg, hi, hfollowing⟩
  · have hd : d ∈ b ++ following es := h.eq ▸ List.mem_append_right _ List.mem_cons_self
    have hword : isWordOrBlank d = true := (List.mem_append.1 hd).elim (hb d) fun hd =>
      isWordOrBlank_of_isBlank (hblank d hd)
    rw [h.stops] at hword
    cases hword
  have hfront : ∀ c ∈ b ++ (g ++ ShaderLink.spaced i.words), isWordOrBlank c = true :=
    List.forall_mem_append.2 ⟨hb, List.forall_mem_append.2
      ⟨fun c hc => isWordOrBlank_of_isBlank (hg.2 c hc), i.spaced_words.forall_mem⟩⟩
  have heq : ShaderLink.spaced qs ++ d :: r =
      (b ++ (g ++ ShaderLink.spaced i.words)) ++ i.kind.delimiter :: (i.behind ++ r') := by
    rw [← h.eq, hfollowing, i.text_eq]
    simp
  obtain ⟨hqs, hdr⟩ := prefix_unique h.spaced.forall_mem hfront (stops_cons h.stops _)
    (stops_cons i.kind.isWordOrBlank_delimiter _) heq
  obtain ⟨rfl, -⟩ := List.cons.inj hdr
  rw [← List.append_assoc] at hqs
  by_cases hwords : i.words = []
  · refine ⟨i, g, qs, hi, rfl, hg, h.ne_nil, by rw [hwords, List.append_nil], ?_⟩
    rw [hqs, hwords, spaced_nil, List.append_nil]
  · have hopen : ShaderLink.opensSized (ShaderLink.spaced i.words) = true := by
      simpa using i.spaced_words.opensSized hwords []
    obtain ⟨pre, w, v, g', post, rfl, hpost, hy, hz⟩ := h.spaced.exists_of_append hqs hopen
    have hwords := (Spaced.unique i.spaced_words hpost stops_nil stops_nil
      (congrArg (· ++ []) hz)).1
    -- the gap in front of the next declaration is not within a word
    obtain rfl : w = [] := by
      by_contra hw
      have hword := h.spaced.right.1.2
      have hlast := forall_mem_getLast?_append (p := isSized) hg.1
        (fun c hc => isSized_of_isBlank (hg.2 c hc)) b
      rw [hy, List.getLast?_append, List.getLast?_eq_some_getLast hw] at hlast
      have hsized := hword _ (List.mem_append_left v (List.getLast_mem hw))
      rw [hlast _ rfl] at hsized
      cases hsized
    rw [List.append_nil] at hy
    refine ⟨i, g, pre, hi, rfl, hg, ?_, by rw [hwords]; rfl, hy.symm⟩
    rintro rfl
    exact hne (List.append_eq_nil_iff.1 hy).1

/-- Words and a delimiter that are found from a place in a declaration on: they are words of its
own, or they are behind its delimiter, or it is a macro in which they begin, and they go on with the
words of the next declaration. -/
theorem cases {i : Item} (hab : i.text = a ++ b) (hb : b ≠ [])
    (h : Leads qs d r (b ++ following es)) :
    (∃ pre w v g post, i.words = pre ++ (w ++ v, g) :: post ∧ qs = (v, g) :: post ∧
      d = i.kind.delimiter ∧ r = i.behind ++ following es ∧ a = ShaderLink.spaced pre ++ w) ∨
    (∃ y r', i.behind = y ++ b ∧ b = ShaderLink.spaced qs ++ d :: r' ∧ r = r' ++ following es) ∨
    (i.kind = .define ∧ ∃ j g pre, (j, true) ∈ es ∧ d = j.kind.delimiter ∧ IsGap g ∧ pre ≠ [] ∧
      qs = pre ++ j.words ∧ ShaderLink.spaced pre = b ++ g) := by
  rw [i.text_eq] at hab
  rcases h.front_or_behind i.spaced_words i.kind.isWordOrBlank_delimiter hab hb with
    hfront | ⟨y, hy, -⟩
  · exact Or.inl hfront
  refine Or.inr ?_
  by_cases hword : ∀ c ∈ b, isWordOrBlank c = true
  · refine Or.inr ⟨?_, h.spill hword hb⟩
    by_contra hkind
    have hne : i.behind ≠ [] := fun hnil => hb (List.append_eq_nil_iff.1 (hy.symm.trans hnil)).2
    obtain ⟨u, c, hu, hc⟩ := Item.exists_of_behind hkind hne
    obtain ⟨z, rfl, -⟩ := exists_concat (hu.symm.trans hy) hb
    rw [hword c (List.mem_append_right z List.mem_cons_self)] at hc
    cases hc
  · simp only [not_forall, Bool.not_eq_true] at hword
    obtain ⟨c, hc, hstop⟩ := hword
    obtain ⟨r', hr', hr⟩ := h.inside hc hstop
    exact Or.inl ⟨y, r', hy, hr', hr⟩

end Leads

end ShaderLink
