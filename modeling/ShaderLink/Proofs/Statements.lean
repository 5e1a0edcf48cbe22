import ShaderLink.Proofs.Forms
import ShaderLink.Proofs.Places

/-!
# Namespace imports in a text

Where a namespace import begins can be seen from the text that follows (`Begins`,
`isSome_here_statementForm`), and so a search finds the first such place (`exists_of_search`).
Turning dots of uses into underscores creates no such place (`Turned.begins`), and there is none in
the import statements that are written for the uses (`closed_blocks`).
-/

namespace ShaderLink

open Text Pattern Cursor

/-! ## Searching where matches depend on what follows -/

section Search

variable {p : Pattern} {P : Text → Prop} {t : Text}

theorem isSome_search_iff_of_here
    (hp : ∀ b start t, (p.here b start t.length t).isSome = true ↔ P t) :
    (p.search t).isSome = true ↔ ∃ v, v <:+ t ∧ P v := by
  have hfrom : ∀ (t : Text) b start, (p.searchFrom b start t.length t).isSome = true ↔
      ∃ v, v <:+ t ∧ P v := by
    intro t
    induction t with
    | nil =>
      intro b start
      refine (hp b start []).trans ⟨fun h => ⟨[], List.suffix_rfl, h⟩, ?_⟩
      rintro ⟨v, hv, h⟩
      rwa [List.suffix_nil.1 hv] at h
    | cons c t ih =>
      intro b start
      have hstep : (p.searchFrom b start (c :: t).length (c :: t)).isSome = true ↔
          P (c :: t) ∨ (p.searchFrom (some c) (start + 1) t.length t).isSome = true := by
        rw [← hp b start (c :: t), Pattern.searchFrom]
        cases p.here b start (c :: t).length (c :: t) <;> simp
      rw [hstep, ih]
      simp only [List.suffix_cons_iff]
      constructor
      · rintro (h | ⟨v, hv, h⟩)
        · exact ⟨_, Or.inl rfl, h⟩
        · exact ⟨v, Or.inr hv, h⟩
      · rintro ⟨v, rfl | hv, h⟩
        · exact Or.inl h
        · exact Or.inr ⟨v, hv, h⟩
  exact hfrom t none 0

/-- A search finds the first place. -/
theorem exists_first_of_search {m : Match}
    (hp : ∀ b start t, (p.here b start t.length t).isSome = true ↔ P t)
    (h : p.search t = some m) :
    ∃ b u v, t = u ++ v ∧ p.here b u.length v.length v = some m ∧
      ∀ x y, u = x ++ y → y ≠ [] → ¬ P (y ++ v) := by
  have hfrom : ∀ (v u : Text) b, p.searchFrom b u.length v.length v = some m →
      ∃ b u' v', v = u' ++ v' ∧ p.here b (u ++ u').length v'.length v' = some m ∧
        ∀ x y, u' = x ++ y → y ≠ [] → ¬ P (y ++ v') := by
    intro v
    induction v with
    | nil =>
      intro u b h
      refine ⟨b, [], [], rfl, by simpa [Pattern.searchFrom] using h, fun x y hxy hy => ?_⟩
      exact absurd (List.append_eq_nil_iff.1 hxy.symm).2 hy
    | cons c v ih =>
      intro u b h
      unfold Pattern.searchFrom at h
      cases hhere : p.here b u.length (c :: v).length (c :: v) with
      | some m' =>
        rw [hhere] at h
        refine ⟨b, [], c :: v, rfl, by simpa using hhere.trans h, fun x y hxy hy => ?_⟩
        exact absurd (List.append_eq_nil_iff.1 hxy.symm).2 hy
      | none =>
        rw [hhere] at h
        have h' : p.searchFrom (some c) (u ++ [c]).length v.length v = some m := by simpa using h
        obtain ⟨b', u', v', rfl, hm, hfirst⟩ := ih (u ++ [c]) (some c) h'
        refine ⟨b', c :: u', v', rfl, by simpa using hm, fun x y hxy hy hP => ?_⟩
        cases x with
        | nil =>
          obtain rfl := hxy
          have hsome := (hp b u.length (c :: (u' ++ v'))).2 hP
          rw [hhere] at hsome
          cases hsome
        | cons d x => exact hfirst x y (List.cons.inj hxy).2 hy hP
  obtain ⟨b, u, v, hcut, hm, hfirst⟩ := hfrom t [] none h
  exact ⟨b, u, v, hcut, hm, hfirst⟩

end Search

namespace Namespaces

variable {t u w y : Text} {m : Match} {k k' : Cursor}

/-! ## The form of a namespace import -/

/-- A character of an import path. -/
def isPathChar (c : Char) : Bool := !isBlank c && !"\"'`;\x7b\x7d".toList.contains c

/-- An import path. -/
def IsPath (p : Text) : Prop := p ≠ [] ∧ ∀ c ∈ p, isPathChar c = true

/-- One quote, or none. -/
def IsQuote (q : Text) : Prop := q = [] ∨ ∃ c, isAmong c "\"'`".toList = true ∧ q = [c]

/-- What stands behind the first word of a namespace import, up to the name of the namespace. -/
def Follows (y : Text) : Prop :=
  ∃ g q p g' g'' c r, IsGap g ∧ IsQuote q ∧ IsPath p ∧ IsGap g' ∧ IsGap g'' ∧ isWord c = true ∧
    y = g ++ (q ++ p ++ q) ++ (g' ++ "as".toList ++ g'') ++ c :: r

/-- A namespace import begins here. -/
def Begins (t : Text) : Prop := ∃ y, Follows y ∧ t = "import".toList ++ y

theorem past_eq_some_iff : k.past u = some k' ↔ ∃ t, k.rest = u ++ t ∧ k' = k.after u := by
  induction u generalizing k with
  | nil => exact ⟨fun h => ⟨k.rest, rfl, (Option.some.inj h).symm⟩, fun ⟨_, _, h⟩ => h ▸ rfl⟩
  | cons c u ih =>
    unfold past
    cases hk : k.rest with
    | nil => simp
    | cons d r =>
      by_cases hcd : c = d
      · subst hcd
        have hrest : (k.after [c]).rest = r := rest_after_of_eq hk
        simp only [if_true, next_eq_after hk, ih, hrest, after_after]
        simp
      · simp only [hcd, if_false]
        simp only [reduceCtorEq, List.cons_append, List.cons.injEq, false_iff, not_exists, not_and]
        rintro r' ⟨rfl, -⟩
        exact absurd rfl hcd

theorem isQuote_of_accepts (h : (optional (oneOf "\"'`")).Accepts u) : IsQuote u := by
  rcases h with ⟨c, hc, rfl⟩ | rfl
  · exact Or.inr ⟨c, hc, rfl⟩
  · exact Or.inl rfl

/-- The parts of a namespace import: what stands behind its first word, and around the second one,
in front of the name. -/
structure Statement where
  gap : Text
  quote : Text
  path : Text
  front : Text
  back : Text
  name : Text
  ending : Text
  isGap : IsGap gap
  isQuote : IsQuote quote
  isPath : IsPath path
  isGap_front : IsGap front
  isGap_back : IsGap back
  isIdentifier : IsIdentifier name

def Statement.text (x : Statement) : Text :=
  "import".toList ++ x.gap ++ (x.quote ++ x.path ++ x.quote) ++
    (x.front ++ "as".toList ++ x.back) ++ x.name ++ x.ending

theorem Statement.begins (x : Statement) (t : Text) : Begins (x.text ++ t) := by
  obtain ⟨c, w, hw⟩ := List.exists_cons_of_ne_nil x.isIdentifier.1
  have hc : isWord c = true := x.isIdentifier.2 c (by rw [hw]; exact List.mem_cons_self)
  have hfollows : Follows (x.gap ++ (x.quote ++ x.path ++ x.quote) ++
      (x.front ++ "as".toList ++ x.back) ++ c :: (w ++ x.ending ++ t)) :=
    ⟨x.gap, x.quote, x.path, x.front, x.back, c, _, x.isGap, x.isQuote, x.isPath, x.isGap_front,
      x.isGap_back, hc, rfl⟩
  have htext : x.text ++ t = "import".toList ++ (x.gap ++ (x.quote ++ x.path ++ x.quote) ++
      (x.front ++ "as".toList ++ x.back) ++ c :: (w ++ x.ending ++ t)) := by
    unfold Statement.text
    rw [hw]
    simp only [List.append_assoc, List.cons_append]
  exact ⟨_, hfollows, htext⟩

theorem Statement.isBlank_path (x : Statement) : ∀ c ∈ x.path, isBlank c = false :=
  fun c hc => by simpa using (Bool.and_eq_true_iff.1 (x.isPath.2 c hc)).1

/-- What the form of a namespace import finds has these parts, and behind the name blanks and a
semicolon at most. -/
theorem exists_statement_ending_of_here {b : Option Char} {start : Nat}
    (h : statementForm.here b start t.length t = some m) :
    ∃ x : Statement, m.text = x.text ∧ m.group 2 = x.path ∧ m.group 3 = x.name ∧
      (many (oneOf " \t") ++ optional (lit ';')).Accepts x.ending := by
  obtain ⟨k', hrun, -, htext, hgroup⟩ := exists_run_of_here h
  let k : Cursor := ⟨b, t, t.length, []⟩
  have hk : k.Counts := rfl
  have hrun : (phrase "import" ++ gap).run k (fun k₁ =>
      (optional (oneOf "\"'`")).run k₁ fun k₂ =>
        (many1 (one isPathChar)).run (k₂.remember 1 (k₁.upTo k₂)) fun k₃ =>
          (again 1).run (k₃.remember 2 ((k₂.remember 1 (k₁.upTo k₂)).upTo k₃)) fun k₄ =>
            (gap ++ phrase "as" ++ gap).run k₄ fun k₅ => identifier.run k₅ fun k₆ =>
              (many (oneOf " \t") ++ optional (lit ';')).run (k₆.remember 3 (k₅.upTo k₆)) some) =
                some k' := hrun
  obtain ⟨_, r, ⟨i, g, hi, hg, rfl⟩, hr, h⟩ := exists_of_run rfl rfl hrun
  obtain rfl := accepts_phrase.1 hi
  have h : (optional (oneOf "\"'`")).run ((k.after ("import".toList ++ g)).withGroups []) _ =
      some k' := h
  obtain ⟨q, r, hq, hr', h⟩ := exists_of_run_after rfl rfl hr h
  rw [remember_eq, withGroups_withGroups] at h
  generalize hs₁ : Cursor.upTo _ _ = s₁ at h
  obtain ⟨p, r, hp, hr'', h⟩ := exists_of_run_after rfl rfl hr' h
  rw [remember_eq, withGroups_withGroups] at h
  generalize hs₂ : Cursor.upTo _ _ = s₂ at h
  have hquote : s₁.text = q := hs₁ ▸ text_upTo_after_after hk hr'
  have hpath : s₂.text = p := hs₂ ▸ text_upTo_after_after hk hr''
  have h : ((((k.after ("import".toList ++ g ++ q ++ p)).withGroups [(2, s₂), (1, s₁)]).past
      s₁.text).bind _) = some k' := h
  rw [hquote, Option.bind_eq_some_iff] at h
  obtain ⟨_, h, hrun⟩ := h
  obtain ⟨r, hr, rfl⟩ := past_eq_some_iff.1 h
  rw [rest_withGroups, rest_after_of_eq hr''] at hr
  rw [after_withGroups, after_after] at hrun
  have hrest : k.rest = "import".toList ++ g ++ q ++ p ++ q ++ r := by
    rw [hr'', hr]
    simp only [List.append_assoc]
  obtain ⟨_, r, ⟨_, g₂, ⟨g₁, a, hg₁, ha, rfl⟩, hg₂, rfl⟩, hr, h⟩ :=
    exists_of_run_after rfl rfl hrest hrun
  obtain rfl := accepts_phrase.1 ha
  obtain ⟨w, r, hw, hr', h⟩ := exists_of_run_after rfl rfl hr h
  rw [remember_eq, withGroups_withGroups] at h
  generalize hs₃ : Cursor.upTo _ _ = s₃ at h
  have hname : s₃.text = w := hs₃ ▸ text_upTo_after_after hk hr'
  obtain ⟨e, r, he, hr, h⟩ := exists_of_run_after rfl rfl hr' h
  cases h
  refine ⟨⟨g, q, p, g₁, g₂, w, e, accepts_gap.1 hg, isQuote_of_accepts hq,
    accepts_many1_one.1 hp, accepts_gap.1 hg₁, accepts_gap.1 hg₂, accepts_many1_one.1 hw⟩,
    ?_, ?_, ?_, he⟩
  · rw [htext]
    refine (text_upTo_after hk hr).trans ?_
    unfold Statement.text
    simp only [List.append_assoc]
  · exact (hgroup 1).trans hpath
  · exact (hgroup 2).trans hname

theorem exists_statement_of_here {b : Option Char} {start : Nat}
    (h : statementForm.here b start t.length t = some m) :
    ∃ x : Statement, m.text = x.text ∧ m.group 2 = x.path ∧ m.group 3 = x.name := by
  obtain ⟨x, htext, hpath, hname, -⟩ := exists_statement_ending_of_here h
  exact ⟨x, htext, hpath, hname⟩

/-- A pattern that remembers nothing takes a text that it accepts, and nothing changes but the
place. -/
theorem after_mem_outcomes {p : Pattern} (hp : p.isPlain = true) (hzero : p.groupCount = 0)
    (hu : p.Accepts u) (hk : k.Counts) (hrest : k.rest = u ++ t) : k.after u ∈ p.outcomes k := by
  obtain ⟨gs, hgs⟩ := exists_mem_outcomes hu hrest hk
  obtain ⟨v, r, gs', -, -, he, hsame⟩ := exists_of_mem_outcomes hp hgs
  have hgroups : gs = k.groups := (congrArg Cursor.groups he).trans (hsame hzero)
  rwa [hgroups] at hgs

theorem isSome_run_after {p : Pattern} {done : Cursor → Option Cursor} (hp : p.isPlain = true)
    (hzero : p.groupCount = 0) (hu : p.Accepts u) (hk : k.Counts) (hrest : k.rest = u ++ t)
    (hdone : (done (k.after u)).isSome = true) : (p.run k done).isSome = true := by
  rw [run_eq_findSome?, List.findSome?_isSome_iff]
  exact ⟨_, after_mem_outcomes hp hzero hu hk hrest, hdone⟩

/-- Where a namespace import begins the form of one is found. -/
theorem isSome_here_statementForm (b : Option Char) (start : Nat) (t : Text) :
    (statementForm.here b start t.length t).isSome = true ↔ Begins t := by
  constructor
  · intro h
    obtain ⟨m, hm⟩ := Option.isSome_iff_exists.1 h
    obtain ⟨x, hx, -, -⟩ := exists_statement_of_here hm
    obtain ⟨r, rfl⟩ := text_prefix_of_here hm
    exact hx ▸ x.begins r
  · rintro ⟨y, ⟨g, q, p, g₁, g₂, c, r, hg, hq, hp, hg₁, hg₂, hc, rfl⟩, rfl⟩
    rw [here, Option.isSome_map]
    generalize hrest : "import".toList ++ (g ++ (q ++ p ++ q) ++ (g₁ ++ "as".toList ++ g₂) ++
      c :: r) = t
    have hquote : (optional (oneOf "\"'`")).Accepts q := by
      rcases hq with rfl | ⟨d, hd, rfl⟩
      · exact Or.inr rfl
      · exact Or.inl ⟨d, hd, rfl⟩
    let k : Cursor := ⟨b, t, t.length, []⟩
    have hk : k.Counts := rfl
    show ((phrase "import" ++ gap).run k fun k₁ =>
      (optional (oneOf "\"'`")).run k₁ fun k₂ =>
        (many1 (one isPathChar)).run (k₂.remember 1 (k₁.upTo k₂)) fun k₃ =>
          (again 1).run (k₃.remember 2 ((k₂.remember 1 (k₁.upTo k₂)).upTo k₃)) fun k₄ =>
            (gap ++ phrase "as" ++ gap).run k₄ fun k₅ => identifier.run k₅ fun k₆ =>
              (many (oneOf " \t") ++ optional (lit ';')).run (k₆.remember 3 (k₅.upTo k₆))
                some).isSome = true
    have h₁ : k.rest = ("import".toList ++ g) ++ (q ++ (p ++ (q ++
        (g₁ ++ "as".toList ++ g₂ ++ c :: r)))) := by
      refine hrest.symm.trans ?_
      simp only [List.append_assoc]
    refine isSome_run_after rfl rfl ⟨_, g, accepts_phrase.2 rfl, accepts_gap.2 hg, rfl⟩ hk h₁ ?_
    have hk₁ := hk.after ("import".toList ++ g)
    have h₂ := rest_after_of_eq h₁
    generalize k.after ("import".toList ++ g) = k₁ at hk₁ h₂ ⊢
    refine isSome_run_after rfl rfl hquote hk₁ h₂ ?_
    have htext : (k₁.upTo (k₁.after q)).text = q := text_upTo_after hk₁ h₂
    have hk₂ := hk₁.after q
    have h₃ := rest_after_of_eq h₂
    generalize k₁.upTo (k₁.after q) = s at htext ⊢
    generalize k₁.after q = k₂ at hk₂ h₃ ⊢
    refine isSome_run_after rfl rfl (accepts_many1_one.2 hp) (k := k₂.remember 1 s) hk₂ h₃ ?_
    have hk₃ := hk₂.after p
    have h₄ := rest_after_of_eq h₃
    generalize Cursor.upTo _ _ = s'
    let k₃ : Cursor := (k₂.after p).withGroups ((2, s') :: (1, s) :: k₂.groups)
    have hpast : k₃.past s.text = some (k₃.after q) := by
      rw [htext]
      exact past_eq_some_iff.2 ⟨_, h₄, rfl⟩
    show (((some s.text).bind fun t => k₃.past t).bind _).isSome = true
    rw [Option.bind_some, hpast, Option.bind_some]
    have hk₄ : (k₃.after q).Counts := hk₃.after q
    have h₅ : (k₃.after q).rest = g₁ ++ "as".toList ++ g₂ ++ c :: r := rest_after_of_eq h₄
    refine isSome_run_after rfl rfl ⟨_, g₂, ⟨g₁, _, accepts_gap.2 hg₁, accepts_phrase.2 rfl, rfl⟩,
      accepts_gap.2 hg₂, rfl⟩ hk₄ h₅ ?_
    have hword : identifier.Accepts [c] :=
      accepts_many1_one.2 ⟨List.cons_ne_nil c [], by simpa using hc⟩
    refine isSome_run_after (t := r) rfl rfl hword (hk₄.after _) (rest_after_of_eq h₅) ?_
    have hnothing : (many (oneOf " \t") ++ optional (lit ';')).Accepts [] :=
      ⟨[], [], List.forall_mem_nil _, Or.inr rfl, rfl⟩
    exact isSome_run_after rfl rfl hnothing ((hk₄.after _).after _) (List.nil_append _).symm rfl

/-! ## Texts without namespace imports -/

/-- No namespace import begins anywhere in the text. -/
def Closed (t : Text) : Prop := ∀ v, v <:+ t → ¬ Begins v

theorem search_eq_none_iff : statementForm.search t = none ↔ Closed t := by
  rw [← Option.not_isSome_iff_eq_none, isSome_search_iff_of_here isSome_here_statementForm]
  simp [Closed]

/-- What is found is the first namespace import. -/
theorem exists_of_search (h : statementForm.search t = some m) :
    ∃ u v, ∃ x : Statement, t = u ++ (m.text ++ v) ∧ m.start = u.length ∧ m.text = x.text ∧
      m.group 2 = x.path ∧ m.group 3 = x.name ∧
        ∀ y z, u = y ++ z → z ≠ [] → ¬ Begins (z ++ (m.text ++ v)) := by
  obtain ⟨b, u, v, rfl, hhere, hfirst⟩ := exists_first_of_search isSome_here_statementForm h
  obtain ⟨x, hx⟩ := exists_statement_of_here hhere
  obtain ⟨_, -, hstart, -, -⟩ := exists_run_of_here hhere
  obtain ⟨r, rfl⟩ := text_prefix_of_here hhere
  exact ⟨u, r, x, rfl, hstart, hx.1, hx.2.1, hx.2.2, hfirst⟩

theorem closed_append (h : Closed t)
    (hu : ∀ y z, u = y ++ z → z ≠ [] → ¬ Begins (z ++ t)) : Closed (u ++ t) := by
  rintro v ⟨y, hy⟩
  rcases List.append_eq_append_iff.1 hy with ⟨z, rfl, rfl⟩ | ⟨z, rfl, hz⟩
  · by_cases hnil : z = []
    · exact h _ (by rw [hnil]; exact List.suffix_rfl)
    · exact hu y z rfl hnil
  · exact h v ⟨z, hz.symm⟩

theorem closed_cons {c : Char} (hc : c ≠ 'i') (h : Closed t) : Closed (c :: t) := by
  refine closed_append (u := [c]) h fun y z hyz hz => ?_
  obtain ⟨rfl, rfl⟩ : y = [] ∧ z = [c] := by
    rcases List.append_eq_cons_iff.1 hyz.symm with ⟨rfl, rfl⟩ | ⟨y', rfl, hy'⟩
    · exact ⟨rfl, rfl⟩
    · exact absurd (List.append_eq_nil_iff.1 hy'.symm).2 hz
  rintro ⟨y, -, hy⟩
  exact hc (List.cons.inj hy).1

theorem Follows.exists_gap (h : Follows y) : ∃ c r, y = c :: r ∧ isBlank c = true := by
  obtain ⟨g, q, p, g₁, g₂, c, r, hg, -, -, -, -, -, rfl⟩ := h
  obtain ⟨d, g, rfl⟩ := List.exists_cons_of_ne_nil hg.1
  exact ⟨d, _, rfl, hg.2 d List.mem_cons_self⟩

/-- A word in front of something else is the first one of an import only if it ends like it. -/
theorem closed_word (hw : ∀ c ∈ w, isWord c = true) (hopen : opensWord t = false) (h : Closed t)
    (hfollows : "import".toList <:+ w → ¬ Follows t) : Closed (w ++ t) := by
  refine closed_append h fun y z hyz hz => ?_
  rintro ⟨x, hx, he⟩
  obtain ⟨c, r, rfl, hc⟩ := hx.exists_gap
  have hz' : ∀ c ∈ z, isWord c = true := fun c hc => hw c (hyz ▸ List.mem_append_right y hc)
  have himport : ∀ c ∈ "import".toList, isWord c = true :=
    List.all_eq_true.1 (by decide)
  have hhead : ∀ c ∈ t.head?, isWord c = false := by
    intro c hc
    rw [opensWord, hc] at hopen
    exact hopen
  obtain ⟨rfl, rfl⟩ := prefix_unique (p := isWord) hz' himport hhead
    (by rintro d ⟨⟩; exact isWord_of_isBlank hc) he
  exact hfollows ⟨y, hyz.symm⟩ hx

/-- No import begins among characters that are no blanks in front of a quote. -/
theorem closed_quoted (hw : ∀ c ∈ w, isBlank c = false) (h : Closed t) :
    Closed (w ++ '"' :: t) := by
  refine closed_append (closed_cons (by decide) h) fun y z hyz hz => ?_
  rintro ⟨x, hx, he⟩
  obtain ⟨c, r, rfl, hc⟩ := hx.exists_gap
  have hblank : ∀ d ∈ z ++ ['"'], isBlank d = false := by
    intro d hd
    rcases List.mem_append.1 hd with hd | hd
    · exact hw d (hyz ▸ List.mem_append_right y hd)
    · rw [List.mem_singleton.1 hd]
      decide
  have he : (z ++ ['"']) ++ t = "import".toList ++ c :: r := by
    rw [← he, List.append_assoc]
    rfl
  -- the quote would have to stand in the first word
  have hmem : '"' ∈ "import".toList := by
    rcases List.append_eq_append_iff.1 he with ⟨a, ha, -⟩ | ⟨a, ha, ha'⟩
    · rw [ha]
      simp
    · cases a with
      | nil =>
        rw [List.append_nil] at ha
        rw [← ha]
        simp
      | cons d a =>
        obtain ⟨rfl, -⟩ := List.cons.inj ha'
        rw [hblank c (ha ▸ by simp)] at hc
        cases hc
  exact absurd hmem (by decide)

/-! ## The import statements that are written -/

/-- An entry of an import statement: a name, and the name under which it is imported. -/
def entryText (e : Text × Text) : Text := e.1 ++ " as ".toList ++ e.2

/-- The import statements for entries by module. -/
def blocks (imports : List (Text × List (Text × Text))) : Text :=
  Text.join ['\n'] (imports.map fun i => block (i.1, i.2.map entryText))

/-- The entry imports a word under another word. -/
def IsEntry (e : Text × Text) : Prop :=
  IsIdentifier e.1 ∧ IsIdentifier e.2 ∧ e.2 ≠ "as".toList

theorem not_semicolon_mem_path {q p : Text} (hq : IsQuote q) (hp : IsPath p) :
    ';' ∉ q ++ p ++ q := by
  have hquote : ';' ∉ q := by
    rcases hq with rfl | ⟨d, hd, rfl⟩
    · exact List.not_mem_nil
    · intro hmem
      obtain rfl := List.mem_singleton.1 hmem
      exact absurd hd (by decide)
  have hpath : ';' ∉ p := fun hmem => absurd (hp.2 _ hmem) (by decide)
  simp only [List.mem_append, not_or]
  exact ⟨⟨hquote, hpath⟩, hquote⟩

/-- A path and its quotes go on up to a blank, and there are no braces in them. -/
theorem path_chars {q p : Text} (hq : IsQuote q) (hp : IsPath p) :
    ∀ c ∈ q ++ p ++ q, isBlank c = false ∧ c ≠ '\x7b' ∧ c ≠ '\x7d' := by
  have hquotes : ("\"'`".toList.all fun c => !isBlank c && c != '\x7b' && c != '\x7d') = true := by
    decide
  have hquote : ∀ c ∈ q, isBlank c = false ∧ c ≠ '\x7b' ∧ c ≠ '\x7d' := by
    rcases hq with rfl | ⟨d, hd, rfl⟩
    · exact List.forall_mem_nil _
    · have hmem : d ∈ "\"'`".toList := by simpa [isAmong] using hd
      simpa [and_assoc] using List.all_eq_true.1 hquotes d hmem
  have hpath : ∀ c ∈ p, isBlank c = false ∧ c ≠ '\x7b' ∧ c ≠ '\x7d' := by
    intro c hc
    have hchar := hp.2 c hc
    refine ⟨by simpa using (Bool.and_eq_true_iff.1 hchar).1, ?_, ?_⟩ <;>
    · rintro rfl
      exact absurd hchar (by decide)
  intro c hc
  simp only [List.mem_append] at hc
  rcases hc with (hc | hc) | hc
  · exact hquote c hc
  · exact hpath c hc
  · exact hquote c hc

/-- Behind the first gap a path comes next, with its quotes, and then another gap. -/
theorem Follows.exists_parts (h : Follows y) : ∃ g p g' c r, IsGap g ∧ p ≠ [] ∧
    (∀ c ∈ p, isBlank c = false ∧ c ≠ '\x7b' ∧ c ≠ '\x7d') ∧ IsGap g' ∧ isBlank c = true ∧
      y = g ++ (p ++ (g' ++ ("as".toList ++ c :: r))) := by
  obtain ⟨g, q, p, g₁, g₂, c, r, hg, hq, hp, hg₁, hg₂, hc, rfl⟩ := h
  obtain ⟨d, g₂, rfl⟩ := List.exists_cons_of_ne_nil hg₂.1
  refine ⟨g, q ++ p ++ q, g₁, d, g₂ ++ c :: r, hg, ?_, path_chars hq hp, hg₁,
    hg₂.2 d List.mem_cons_self, by simp only [List.append_assoc, List.cons_append]⟩
  simp [hp.1]

theorem not_follows_brace {b c : Char} (hb : isBlank b = true) (hc : c = '\x7b' ∨ c = '\x7d')
    (t : Text) : ¬ Follows (b :: c :: t) := by
  intro h
  obtain ⟨g, p, g', d, r, hg, hne, hp, -, -, he⟩ := h.exists_parts
  obtain ⟨e, p, rfl⟩ := List.exists_cons_of_ne_nil hne
  have hblank : isBlank c = false := by rcases hc with rfl | rfl <;> decide
  have hfirst := hp e List.mem_cons_self
  have he : [b] ++ c :: t = _ := he
  obtain ⟨-, hcons⟩ := prefix_unique (p := isBlank) (by simpa using hb) hg.2
    (by simpa using hblank) (by simpa using hfirst.1) he
  rw [← (List.cons.inj hcons).1] at hfirst
  exact hc.elim hfirst.2.1 hfirst.2.2

theorem forall_mem_head?_cons {p : Char → Bool} {c : Char} (hc : p c = false) (t : Text) :
    ∀ d ∈ (c :: t).head?, p d = false := by
  rintro _ ⟨⟩
  exact hc

theorem toList_as : "as".toList = ['a', 's'] := rfl

theorem toList_spaced_as : " as ".toList = [' ', 'a', 's', ' '] := rfl

/-- An alias does not complete an import. -/
theorem not_follows_alias (hw : IsIdentifier w) (hne : w ≠ "as".toList)
    (ht : opensWord t = false) : ¬ Follows (" as ".toList ++ (w ++ t)) := by
  intro h
  obtain ⟨g, p, g', c, r, hg, hne', hp, hg', hc, he⟩ := h.exists_parts
  obtain ⟨d, p, rfl⟩ := List.exists_cons_of_ne_nil hne'
  obtain ⟨e, v, rfl⟩ := List.exists_cons_of_ne_nil hw.1
  obtain ⟨f, g', rfl⟩ := List.exists_cons_of_ne_nil hg'.1
  have hword : isBlank e = false :=
    isBlank_of_isSized (isSized_of_isWord (hw.2 e List.mem_cons_self))
  have hpath : ∀ c ∈ d :: p, (!isBlank c) = true := fun c hc => by rw [(hp c hc).1]; rfl
  have hfront : (!isBlank f) = false := by rw [hg'.2 f List.mem_cons_self]; rfl
  rw [toList_spaced_as, toList_as] at he
  -- the path would have to be the word in between, and then the alias the same word
  obtain ⟨-, he⟩ := prefix_unique (p := isBlank) (a := [' ']) (List.all_eq_true.1 (by decide)) hg.2
    (forall_mem_head?_cons (by decide) _)
    (forall_mem_head?_cons (hp d List.mem_cons_self).1 _) he
  obtain ⟨-, he⟩ := prefix_unique (p := fun c => !isBlank c) (a := ['a', 's'])
    (List.all_eq_true.1 (by decide)) hpath (forall_mem_head?_cons (by decide) _)
    (forall_mem_head?_cons hfront _) he
  obtain ⟨-, he⟩ := prefix_unique (p := isBlank) (a := [' ']) (List.all_eq_true.1 (by decide)) hg'.2
    (forall_mem_head?_cons hword _) (forall_mem_head?_cons (by decide) _) he
  have he : (e :: v) ++ t = ['a', 's'] ++ c :: r := he
  have hhead : ∀ c ∈ t.head?, isWord c = false := by
    intro c hc
    rw [opensWord, hc] at ht
    exact ht
  obtain ⟨hsame, -⟩ := prefix_unique (p := isWord) hw.2 (List.all_eq_true.1 (by decide)) hhead
    (forall_mem_head?_cons (isWord_of_isBlank hc) _) he
  exact hne hsame

/-! ## Closed texts -/

theorem closed_entry {e : Text × Text} (he : IsEntry e) (hopen : opensWord t = false)
    (hfollows : ¬ Follows t) (h : Closed t) : Closed (entryText e ++ t) := by
  obtain ⟨hname, halias, hne⟩ := he
  have hlast : Closed (e.2 ++ t) := closed_word halias.2 hopen h fun _ => hfollows
  have hmiddle : Closed (" as ".toList ++ (e.2 ++ t)) := by
    rw [toList_spaced_as]
    exact closed_cons (by decide) (closed_cons (by decide) (closed_cons (by decide)
      (closed_cons (by decide) hlast)))
  have hfirst := closed_word hname.2 (t := " as ".toList ++ (e.2 ++ t)) rfl hmiddle fun _ =>
    not_follows_alias halias hne hopen
  rwa [← List.append_assoc, ← List.append_assoc] at hfirst

theorem closed_entries {es : List (Text × Text)} (hes : ∀ e ∈ es, IsEntry e)
    (hopen : opensWord t = false) (hfollows : ¬ Follows t) (h : Closed t) :
    Closed (Text.join ",\n  ".toList (es.map entryText) ++ t) := by
  induction es with
  | nil => exact h
  | cons e es ih =>
    rw [List.forall_mem_cons] at hes
    rw [List.map_cons, join_cons_append]
    split
    · exact closed_entry hes.1 hopen hfollows h
    · have hrest := ih hes.2
      rw [show ",\n  ".toList = [',', '\n', ' ', ' '] from rfl] at hrest ⊢
      refine closed_entry hes.1 rfl ?_ (closed_cons (by decide) (closed_cons (by decide)
        (closed_cons (by decide) (closed_cons (by decide) hrest))))
      intro hsep
      obtain ⟨c, r, hcons, hc⟩ := hsep.exists_gap
      obtain ⟨rfl, -⟩ := List.cons.inj hcons
      exact absurd hc (by decide)

theorem block_append (path : Text) (entries : List Text) (t : Text) :
    block (path, entries) ++ t = "import".toList ++ (' ' :: '\x7b' :: '\n' :: ' ' :: ' ' ::
      (Text.join ",\n  ".toList entries ++ ('\n' :: '\x7d' :: ' ' ::
        ("from".toList ++ (' ' :: '"' :: (path ++ '"' :: ';' :: t)))))) := by
  have hopening : "import \x7b\n  ".toList = "import".toList ++ [' ', '\x7b', '\n', ' ', ' '] := rfl
  have hmiddle : "\n\x7d from \"".toList = ['\n', '\x7d', ' '] ++ ("from".toList ++ [' ', '"']) :=
    rfl
  have hending : "\";".toList = ['"', ';'] := rfl
  unfold block
  simp only [hopening, hmiddle, hending, List.append_assoc, List.cons_append, List.nil_append]

theorem closed_block {i : Text × List (Text × Text)} (hpath : ∀ c ∈ i.1, isBlank c = false)
    (hentries : ∀ e ∈ i.2, IsEntry e) (h : Closed t) :
    Closed (block (i.1, i.2.map entryText) ++ t) := by
  obtain ⟨r, hr⟩ : ∃ r, r = "from".toList ++ (' ' :: '"' :: (i.1 ++ '"' :: ';' :: t)) := ⟨_, rfl⟩
  have hfrom : Closed r := by
    rw [hr]
    exact closed_word (List.all_eq_true.1 (by decide)) rfl (closed_cons (by decide)
      (closed_cons (by decide) (closed_quoted hpath (closed_cons (by decide) h))))
      fun h => absurd h (by decide)
  obtain ⟨l, hl⟩ : ∃ l, l = Text.join ",\n  ".toList (i.2.map entryText) ++
      ('\n' :: '\x7d' :: ' ' :: r) := ⟨_, rfl⟩
  have hlist : Closed l := by
    rw [hl]
    exact closed_entries hentries rfl (not_follows_brace (by decide) (Or.inr rfl) _)
      (closed_cons (by decide) (closed_cons (by decide) (closed_cons (by decide) hfrom)))
  have hhead : Closed ("import".toList ++ (' ' :: '\x7b' :: '\n' :: ' ' :: ' ' :: l)) :=
    closed_word (List.all_eq_true.1 (by decide)) rfl (closed_cons (by decide)
      (closed_cons (by decide) (closed_cons (by decide) (closed_cons (by decide)
        (closed_cons (by decide) hlist)))))
      fun _ => not_follows_brace (by decide) (Or.inl rfl) _
  rw [block_append, ← hr, ← hl]
  exact hhead

/-- No namespace import begins inside of the import statements that are written. -/
theorem closed_blocks {imports : List (Text × List (Text × Text))}
    (hpath : ∀ i ∈ imports, ∀ c ∈ i.1, isBlank c = false)
    (hentries : ∀ i ∈ imports, ∀ e ∈ i.2, IsEntry e) (h : Closed t) :
    Closed (blocks imports ++ t) := by
  unfold blocks
  induction imports with
  | nil => exact h
  | cons i is ih =>
    rw [List.forall_mem_cons] at hpath hentries
    rw [List.map_cons, join_cons_append]
    refine closed_block hpath.1 hentries.1 ?_
    split
    · exact h
    · exact closed_cons (by decide) (ih hpath.2 hentries.2)

/-! ## What goes on in front of them, and where dots are turned -/

/-- A character that stands in no import in front of the name. -/
def IsStop (c : Char) : Prop := c = '\x7b' ∨ c = ';'

theorem not_mem_front {d : Char} (hd : IsStop d) {g q p g₁ g₂ : Text} (hg : IsGap g)
    (hq : IsQuote q) (hp : IsPath p) (hg₁ : IsGap g₁) (hg₂ : IsGap g₂) :
    d ∉ "import".toList ++ g ++ (q ++ p ++ q) ++ (g₁ ++ "as".toList ++ g₂) := by
  have hgap : ∀ {g : Text}, IsGap g → d ∉ g := by
    intro g hg hmem
    have hblank := hg.2 _ hmem
    rcases hd with rfl | rfl <;> exact absurd hblank (by decide)
  have hpath : d ∉ q ++ p ++ q := by
    rcases hd with rfl | rfl
    · exact fun hmem => (path_chars hq hp _ hmem).2.1 rfl
    · exact not_semicolon_mem_path hq hp
  have himport : d ∉ "import".toList := by rcases hd with rfl | rfl <;> decide
  have has : d ∉ "as".toList := by rcases hd with rfl | rfl <;> decide
  intro hmem
  rw [List.mem_append, List.mem_append, List.mem_append, List.mem_append (s := g₁ ++ _),
    List.mem_append (s := g₁)] at hmem
  rcases hmem with ((h | h) | h) | (h | h) | h
  · exact himport h
  · exact hgap hg h
  · exact hpath h
  · exact hgap hg₁ h
  · exact has h
  · exact hgap hg₂ h

/-- Where an import begins can be seen up to the first character of its name. -/
theorem Begins.exists_prefix (h : Begins t) :
    ∃ u, u <+: t ∧ closesWord u = true ∧ (∀ d, IsStop d → d ∉ u) ∧ ∀ r, Begins (u ++ r) := by
  obtain ⟨y, ⟨g, q, p, g₁, g₂, c, r, hg, hq, hp, hg₁, hg₂, hc, rfl⟩, rfl⟩ := h
  refine ⟨"import".toList ++ g ++ (q ++ p ++ q) ++ (g₁ ++ "as".toList ++ g₂) ++ [c],
    ⟨r, by simp only [List.append_assoc, List.singleton_append]⟩, ?_, fun d hd => ?_, fun r' => ?_⟩
  · rw [closesWord_append (List.cons_ne_nil c [])]
    exact hc
  · have hne : d ≠ c := by
      rintro rfl
      rcases hd with rfl | rfl <;> exact absurd hc (by decide)
    rw [List.mem_append, List.mem_singleton, not_or]
    exact ⟨not_mem_front hd hg hq hp hg₁ hg₂, hne⟩
  · exact ⟨_, ⟨g, q, p, g₁, g₂, c, r', hg, hq, hp, hg₁, hg₂, hc, rfl⟩,
      by simp only [List.append_assoc, List.singleton_append]⟩

/-- What stands behind a brace or a semicolon has no part in an import that begins in front. -/
theorem Begins.of_stop {d : Char} (hd : IsStop d) (h : Begins (u ++ d :: t)) (r : Text) :
    Begins (u ++ r) := by
  obtain ⟨v, hpre, -, hstop, hbegins⟩ := h.exists_prefix
  rcases List.prefix_or_prefix_of_prefix hpre (List.prefix_append _ _) with ⟨x, rfl⟩ | ⟨x, rfl⟩
  · rw [List.append_assoc]
    exact hbegins _
  · rw [List.prefix_append_right_inj] at hpre
    cases x with
    | nil => simpa using hbegins r
    | cons e x =>
      obtain ⟨rfl, -⟩ := List.cons_prefix_cons.1 hpre
      exact absurd (List.mem_append_right _ List.mem_cons_self) (hstop _ hd)

/-- An import that begins in front of a statement that is written ends in front of its brace. -/
theorem begins_of_brace (h : Begins (u ++ ("import".toList ++ (' ' :: '\x7b' :: t)))) (r : Text) :
    Begins (u ++ ("import".toList ++ r)) := by
  obtain ⟨v, hpre, hclose, hstop, hbegins⟩ := h.exists_prefix
  have hsplit : u ++ ("import".toList ++ (' ' :: '\x7b' :: t)) =
      (u ++ "import".toList ++ [' ']) ++ '\x7b' :: t := by
    simp only [List.append_assoc, List.singleton_append]
  rw [hsplit] at hpre
  have hblank : v <+: u ++ "import".toList ++ [' '] := by
    rcases List.prefix_or_prefix_of_prefix hpre (List.prefix_append _ _) with hv | ⟨x, rfl⟩
    · exact hv
    · rw [List.prefix_append_right_inj] at hpre
      cases x with
      | nil => simp
      | cons d x =>
        obtain ⟨rfl, -⟩ := List.cons_prefix_cons.1 hpre
        exact absurd (List.mem_append_right _ List.mem_cons_self) (hstop _ (Or.inl rfl))
  have hword : v <+: u ++ "import".toList := by
    rcases List.prefix_concat_iff.1 hblank with rfl | hv
    · rw [closesWord_append (List.cons_ne_nil ' ' [])] at hclose
      exact absurd hclose (by decide)
    · exact hv
  obtain ⟨x, hx⟩ := hword
  rw [← List.append_assoc, ← hx, List.append_assoc]
  exact hbegins _

namespace Turned

variable {b : Bool} {t' x x' : Text}

theorem exists_of_append (h : Turned b t (x' ++ y)) :
    ∃ x z, t = x ++ z ∧ Turned b x x' ∧ Turned (x'.getLast?.elim b isWord) z y := by
  induction x' generalizing b t with
  | nil => exact ⟨[], t, rfl, .nil b, h⟩
  | cons c x' ih =>
    have hlast : ∀ b : Bool, (c :: x').getLast?.elim b isWord =
        x'.getLast?.elim (isWord c) isWord := by
      intro b
      rw [List.getLast?_cons]
      cases x'.getLast? <;> rfl
    rw [hlast]
    cases h with
    | keep _ _ h =>
      obtain ⟨x, z, rfl, hx, hz⟩ := ih h
      exact ⟨c :: x, z, rfl, .keep b c hx, hz⟩
    | turn h =>
      obtain ⟨x, z, rfl, hx, hz⟩ := ih h
      exact ⟨'.' :: x, z, rfl, .turn hx, hz⟩

theorem eq_of_not_mem (h : Turned b x x') (hx : '_' ∉ x') : x = x' := by
  induction h with
  | nil b => rfl
  | keep b c _ ih => rw [ih fun h => hx (List.mem_cons_of_mem _ h)]
  | turn _ _ => exact absurd List.mem_cons_self hx

theorem forall_mem {P : Char → Prop} (h : Turned b x x') (hdot : P '.') (hx : ∀ c ∈ x', P c) :
    ∀ c ∈ x, P c := by
  induction h with
  | nil b => exact hx
  | keep b c _ ih =>
    rw [List.forall_mem_cons] at hx ⊢
    exact ⟨hx.1, ih hx.2⟩
  | turn _ ih =>
    rw [List.forall_mem_cons] at hx ⊢
    exact ⟨hdot, ih hx.2⟩

/-- Turning dots makes no imports. -/
theorem begins (h : Turned b t t') (ht : Begins t') : Begins t := by
  obtain ⟨y, ⟨g, q, p, g₁, g₂, c, r, hg, hq, hp, hg₁, hg₂, hc, rfl⟩, rfl⟩ := ht
  have hgap : ∀ {g : Text}, IsGap g → '_' ∉ g := fun hg hmem => absurd (hg.2 _ hmem) (by decide)
  have hquote : '_' ∉ q := by
    rcases hq with rfl | ⟨d, hd, rfl⟩
    · exact List.not_mem_nil
    · rintro hmem
      obtain rfl := List.mem_singleton.1 hmem
      exact absurd hd (by decide)
  have hfront : '_' ∉ "import".toList ++ g ++ q := by
    have himport : '_' ∉ "import".toList := by decide
    simp only [List.mem_append, not_or]
    exact ⟨⟨himport, hgap hg⟩, hquote⟩
  have hback : '_' ∉ q ++ (g₁ ++ "as".toList ++ g₂) := by
    have has : '_' ∉ "as".toList := by decide
    simp only [List.mem_append, not_or]
    exact ⟨hquote, ⟨hgap hg₁, has⟩, hgap hg₂⟩
  have hsplit : "import".toList ++ (g ++ (q ++ p ++ q) ++ (g₁ ++ "as".toList ++ g₂) ++ c :: r) =
      ("import".toList ++ g ++ q) ++ (p ++ ((q ++ (g₁ ++ "as".toList ++ g₂)) ++ c :: r)) := by
    simp only [List.append_assoc]
  rw [hsplit] at h
  obtain ⟨x, z, rfl, hx, hz⟩ := h.exists_of_append
  obtain rfl := hx.eq_of_not_mem hfront
  obtain ⟨p', z, rfl, hp', hz⟩ := hz.exists_of_append
  obtain ⟨x, z, rfl, hx, hname⟩ := hz.exists_of_append
  obtain rfl := hx.eq_of_not_mem hback
  have hpath : IsPath p' :=
    ⟨mt hp'.eq_nil_iff.2 hp.1, hp'.forall_mem (by decide) hp.2⟩
  -- a gap stands in front of the name, so its first character is no dot that was turned
  have hstate : (q ++ (g₁ ++ "as".toList ++ g₂)).getLast?.elim
      (p.getLast?.elim (("import".toList ++ g ++ q).getLast?.elim b isWord) isWord) isWord =
        false := by
    have hlast := List.getLast?_eq_some_getLast hg₂.1
    rw [List.getLast?_append, List.getLast?_append, hlast, Option.some_or, Option.some_or]
    exact isWord_of_isBlank (hg₂.2 _ (List.getLast_mem hg₂.1))
  rw [hstate] at hname
  cases hname with
  | @keep _ _ r' _ _ =>
    exact ⟨_, ⟨g, q, p', g₁, g₂, c, r', hg, hq, hpath, hg₁, hg₂, hc, rfl⟩,
      by simp only [List.append_assoc]⟩

end Turned

end Namespaces

end ShaderLink
