import ShaderLink.Proofs.Leads
import ShaderLink.Proofs.Passes
import ShaderLink.Proofs.Readings

/-!
# What the forms find elsewhere

In a module that is a list of regular declarations the form of a kind finds nothing inside of
declarations whose turn is later: where it finds something, a declaration of the kind stands
(`kind_of_function`, `kind_of_uniform`, `kind_of_global`, `kind_of_struct`).  Imports and exports
are found nowhere (`not_import`, `not_export`).
-/

namespace ShaderLink

open Text Pattern

variable {i : Item} {es : List Slot} {a b f p r s t w y z : Text} {c d : Char} {b₀ : Option Char}
  {qs : List (Text × Text)} {start : Nat} {m : Match}

/-! ## Inside of structs -/

theorem Leads.mem_of_append (h : Leads qs d r b) (hab : z = y ++ b) :
    ∃ c ∈ z, isSized c = true := by
  have hopen := h.opensSized
  cases b with
  | nil => cases hopen
  | cons c b => exact ⟨c, by simp [hab], hopen⟩

/-- Between the braces are semicolons behind two words. -/
theorem leads_in_fields {fs : List TypedName} (hz : ∀ c ∈ z, isSized c = false)
    (hab : fs.flatMap (fun x => x.text ++ [';']) ++ z = y ++ b) (h : Leads qs d r b) :
    d = ';' ∧ qs.length ≤ 2 := by
  induction fs generalizing y with
  | nil =>
    obtain ⟨c, hc, hsized⟩ := h.mem_of_append hab
    rw [hz c hc] at hsized
    cases hsized
  | cons x fs ih =>
    rw [List.flatMap_cons, List.append_assoc, List.append_assoc, TypedName.text,
      List.append_assoc] at hab
    have hspaced : Spaced x.words :=
      (spaced_last x.isIdentifier_name x.isBlank_trail).cons x.isIdentifier_type x.isGap
    have hb : b ≠ [] := ne_nil_of_opensSized h.opensSized
    have hopen := h.opensSized
    have hfields : ∀ {y}, spaced x.words ++ ';' :: (fs.flatMap (fun x => x.text ++ [';']) ++ z) =
        y ++ b → d = ';' ∧ qs.length ≤ 2 := by
      intro y hy
      rw [← List.append_nil b] at h
      rcases h.front_or_behind hspaced (by decide) hy hb with
        ⟨pre, w, v, g, post, hwords, rfl, rfl, -⟩ | ⟨y', hy', -⟩
      · have hlen := congrArg List.length hwords
        rw [List.length_append, List.length_cons] at hlen
        have htwo : x.words.length = 2 := rfl
        exact ⟨rfl, by rw [List.length_cons]; omega⟩
      · rw [List.append_nil] at h
        exact ih hy'
    rcases List.append_eq_append_iff.1 hab with ⟨u, rfl, hu⟩ | ⟨u, hlead, rfl⟩
    · exact hfields hu
    · cases u with
      | nil => exact hfields (y := []) rfl
      | cons c u =>
        have hc : c ∈ x.lead := hlead ▸ List.mem_append_right y List.mem_cons_self
        rw [show opensSized (c :: u ++ _) = isSized c from rfl,
          isSized_of_isBlank (x.isBlank_lead c hc)] at hopen
        cases hopen

theorem leads_in_struct {x : StructText} (hy : (Item.struct x).behind = y ++ b)
    (h : Leads qs d r b) : d = ';' ∧ qs.length ≤ 2 := by
  have hshape : (Item.struct x).behind = x.fields.flatMap (fun f => f.text ++ [';']) ++
      (x.inner ++ '}' :: (x.between ++ [';'])) := List.append_assoc ..
  have hclose : isSized '}' = false ∧ isSized ';' = false := by decide
  refine leads_in_fields ?_ (hshape.symm.trans hy) h
  refine List.forall_mem_append.2 ⟨fun c hc => isSized_of_isBlank (x.isBlank_inner c hc), ?_⟩
  refine List.forall_mem_cons.2 ⟨hclose.1, List.forall_mem_append.2
    ⟨fun c hc => isSized_of_isBlank (x.isBlank_between c hc), ?_⟩⟩
  simpa using hclose.2

/-! ## Inside of values and macros -/

theorem exists_cons_concat (h : t ++ [c] = y ++ d :: r) (hd : d ≠ c) :
    ∃ z, r = z ++ [c] ∧ t = y ++ d :: z := by
  obtain ⟨z, hz, rfl⟩ := exists_concat h (List.cons_ne_nil d r)
  cases z with
  | nil => exact absurd (List.cons.inj hz).1 hd
  | cons e z =>
    obtain ⟨rfl, rfl⟩ := List.cons.inj hz
    exact ⟨z, rfl, rfl⟩

/-- Behind a parenthesis no parameters of a function come: it is closed, but no brace opens. -/
theorem Tame.not_parameters (h : Tame t) (hbrace : '{' ∉ t)
    (hf : ∀ s r, AllBlank s → f ≠ s ++ '{' :: r) (ht : t = y ++ '(' :: z) (hp : ')' ∉ p)
    (hs : AllBlank s) : p ++ ')' :: (s ++ '{' :: r) ≠ z ++ f := by
  intro heq
  obtain ⟨u, v, rfl, hu⟩ := List.eq_append_cons_of_mem (h.closed y z ht)
  rw [List.append_assoc, List.cons_append] at heq
  obtain ⟨rfl, htail⟩ := first_unique hp hu heq
  have hv : '{' ∉ v := fun hv => hbrace (by simp [ht, hv])
  rcases List.append_eq_append_iff.1 htail with ⟨e, rfl, he⟩ | ⟨e, rfl, he⟩
  · cases e with
    | nil => exact hf [] r (List.forall_mem_nil _) he.symm
    | cons c e =>
      obtain ⟨rfl, -⟩ := List.cons.inj he
      exact hv (by simp)
  · exact hf e r (fun c hc => hs c (List.mem_append_right v hc)) he

/-- Behind the keyword no blank comes. -/
theorem Tame.not_keyword (h : Tame t) (hf : opensWord f = false) (ht : t = a ++ b)
    (hc : isBlank c = true) : b ++ f ≠ "uniform".toList ++ c :: r := by
  intro heq
  rcases List.append_eq_append_iff.1 heq with ⟨u, hu, rfl⟩ | ⟨u, rfl, hu⟩
  · cases u with
    | nil =>
      rw [List.append_nil] at hu
      obtain ⟨d, hd, -⟩ := h.uniform a [] (by rw [ht, hu, List.append_nil])
      cases hd
    | cons d u =>
      have hword : IsIdentifier "uniform".toList := by decide
      have hd : isWord d = true := hword.2 d (hu ▸ List.mem_append_right b List.mem_cons_self)
      rw [show opensWord (d :: u ++ c :: r) = isWord d from rfl, hd] at hf
      cases hf
  · obtain ⟨d, hd, hblank⟩ := h.uniform a u ht
    cases u with
    | nil => cases hd
    | cons e u =>
      cases hd
      rw [(List.cons.inj hu).1.symm, hc] at hblank
      cases hblank

theorem Item.exists_head (i : Item) :
    ∃ c t, i.text = c :: t ∧ isBlank c = false ∧ c ≠ '{' := by
  rw [i.text_eq]
  by_cases hwords : i.words = []
  · refine ⟨i.kind.delimiter, i.behind, by rw [hwords]; rfl,
      isBlank_of_not_isWordOrBlank i.kind.isWordOrBlank_delimiter, ?_⟩
    intro hstruct
    cases i with
    | struct x => cases hwords
    | function x | global x | uniform x | define x =>
      exact absurd (@Kind.delimiter_injective _ .struct hstruct) nofun
  · have hopen := i.spaced_words.opensSized hwords (i.kind.delimiter :: i.behind)
    obtain ⟨c, t, ht⟩ := List.exists_cons_of_ne_nil (ne_nil_of_opensSized hopen)
    rw [ht] at hopen ⊢
    refine ⟨c, t, rfl, isBlank_of_isSized hopen, ?_⟩
    rintro rfl
    cases hopen

/-- No brace is the first of what follows. -/
theorem following_ne (es : List Slot) (hs : AllBlank s) (r : Text) :
    following es ≠ s ++ '{' :: r := by
  intro h
  have hbrace : isBlank '{' = false := by decide
  rcases following_cases es with hblank | ⟨g, i, r', hg, -, hfollowing⟩
  · rw [hblank '{' (h ▸ List.mem_append_right s List.mem_cons_self)] at hbrace
    cases hbrace
  · obtain ⟨c, t, htext, hc, hne⟩ := i.exists_head
    rw [hfollowing, htext, List.cons_append] at h
    obtain ⟨-, htail⟩ := prefix_unique hg.2 hs (by simpa using hc) (by simpa using hbrace) h
    exact hne (List.cons.inj htail).1

theorem opensWord_following (es : List Slot) : opensWord (following es) = false := by
  cases es with
  | nil => rfl
  | cons e es => rw [following_cons]; rfl

/-! ## Functions -/

theorem exists_leads_of_function (h : Form.functionHead.here b₀ start t.length t = some m) :
    ∃ qs p s r, Leads qs '(' (p ++ ')' :: (s ++ '{' :: r)) t ∧ qs.length = 2 ∧ ')' ∉ p ∧
      AllBlank s := by
  obtain ⟨w, g, w', g', p, s, r, hw, hg, hw', hg', hp, hs, ht, -⟩ := exists_of_function h
  exact ⟨_, p, s, r, ⟨spaced_pair hw hg hw' hg', List.cons_ne_nil _ _, by decide, ht⟩, rfl, hp, hs⟩

/-- The words of a regular function are its type and its name. -/
theorem Item.Regular.length_words_function (hi : i.Regular) (hkind : i.kind = .function) :
    i.words.length = 2 := by
  cases i with
  | function x =>
    have hnone : x.precision = [] := hi.supported
    show x.words.length = 2
    rw [FunctionText.words, hnone]
    rfl
  | global x | uniform x | struct x | define x => cases hkind

theorem MacroText.not_mem_text (x : MacroText) (hc : isWordOrBlank c = false)
    (hdefine : c ∉ "#define".toList) (hcontent : c ∉ x.content) : c ∉ x.text := by
  have hgap : ∀ {g : Text}, IsLineGap g → c ∉ g := by
    rintro g hg hmem
    rcases hg.2 c hmem with rfl | rfl <;> exact absurd hc (by decide)
  have hname : c ∉ x.name := by
    intro hmem
    rw [isWordOrBlank_of_isSized (isSized_of_isWord (x.isIdentifier_name.2 c hmem))] at hc
    cases hc
  unfold MacroText.text
  simp only [List.mem_append, not_or]
  exact ⟨hdefine, hgap x.isLineGap, hname, hgap x.isLineGap', hcontent⟩

theorem MacroText.brace_not_mem (x : MacroText) : '{' ∉ x.text :=
  x.not_mem_text (by decide) (by decide) x.opening_not_mem

theorem kind_of_function (hi : i.Regular) (hes : ∀ e ∈ es, e.1.Regular) (hab : i.text = a ++ b)
    (hb : b ≠ []) (h : Form.functionHead.here b₀ start (b ++ following es).length
      (b ++ following es) = some m) : i.kind = .function := by
  obtain ⟨qs, p, s, r, hleads, hlen, hp, hs⟩ := exists_leads_of_function h
  rcases hleads.cases hab hb with ⟨-, -, -, -, -, -, -, hd, -⟩ | ⟨y, r', hy, hb', hr⟩ |
    ⟨-, j, g, pre, hj, hd, -, hpre, hqs, -⟩
  · exact @Kind.delimiter_injective _ .function hd.symm
  · cases i with
    | function x => rfl
    | global x =>
      have hinit : x.init ++ [';'] = (y ++ spaced qs) ++ '(' :: r' := by
        rw [List.append_assoc, ← hb']
        exact hy
      obtain ⟨z, rfl, hz⟩ := exists_cons_concat hinit (by decide)
      rw [List.append_assoc] at hr
      refine absurd hr (hi.tame.not_parameters x.opening_not_mem (fun s r hs heq => ?_) hz hp hs)
      have hstop : isBlank '{' = false ∧ isBlank ';' = false := by decide
      have hfirst := prefix_unique (a := []) (List.forall_mem_nil _) hs (by simpa using hstop.2)
        (by simpa using hstop.1) heq
      exact absurd (List.cons.inj hfirst.2).1 (by decide)
    | uniform x => exact absurd (List.append_eq_nil_iff.1 hy.symm).2 hb
    | struct x =>
      have hin : Leads qs '(' r' b := ⟨hleads.spaced, hleads.ne_nil, hleads.stops, hb'⟩
      exact absurd (leads_in_struct hy hin).1 (by decide)
    | define x =>
      have htext : x.text = (a ++ spaced qs) ++ '(' :: r' := by
        rw [List.append_assoc, ← hb']
        exact hab
      exact absurd hr (hi.tame.toTame.not_parameters x.brace_not_mem
        (fun s r hs => following_ne es hs r) htext hp hs)
  · have hwords := (hes _ hj).length_words_function (@Kind.delimiter_injective _ .function hd.symm)
    have htwo := congrArg List.length hqs
    rw [List.length_append, hlen, hwords] at htwo
    have hpos := List.length_pos_iff.2 hpre
    omega

/-! ## Uniforms -/

/-- A text that begins with a layout begins with its words. -/
theorem Layout.exists_leads (x : Layout) (r : Text) : ∃ d r', Leads x.words d r' (x.text ++ r) ∧
    (x.value.isSome = true → d = '=') := by
  have hne : x.words ≠ [] := by simp [words]
  have hstops : isWordOrBlank ';' = false ∧ isWordOrBlank '=' = false := by decide
  cases hv : x.value with
  | none =>
    refine ⟨';', r, ⟨x.spaced_words, hne, hstops.1, ?_⟩, by simp⟩
    simp [text, ending, hv, front_eq]
  | some v =>
    refine ⟨'=', v ++ ';' :: r, ⟨x.spaced_words, hne, hstops.2, ?_⟩, fun _ => rfl⟩
    simp [text, ending, hv, front_eq]

theorem exists_leads_of_uniform (h : Form.uniformForm.here b₀ start t.length t = some m) :
    ∃ g ps d r, Leads (("uniform".toList, g) :: ps) d r t ∧ IsGap g ∧ 2 ≤ ps.length := by
  obtain ⟨x, hx⟩ := exists_layout_of_uniform h
  obtain ⟨u, rfl⟩ := text_prefix_of_here h
  obtain ⟨d, r, hleads, -⟩ := x.exists_leads u
  have hopening : ∃ ks, x.keywords.map Prod.fst = "uniform".toList :: ks := by
    have hmem := hx.suits.opening
    simp only [Kind.openings, List.mem_cons, List.not_mem_nil, or_false] at hmem
    rcases hmem with h | h | h | h <;> exact ⟨_, h⟩
  obtain ⟨ks, hks⟩ := hopening
  obtain ⟨⟨w, g⟩, ps, hps, rfl, -⟩ := List.map_eq_cons_iff.1 hks
  rw [Layout.words, hps] at hleads
  refine ⟨g, ps ++ _, d, r, hx.text ▸ hleads, (x.isKeyword _ (hps ▸ List.mem_cons_self)).2, ?_⟩
  simp

/-- The words of a regular global variable are a type and a name, perhaps behind one keyword. -/
theorem Item.Regular.words_global {x : GlobalText} (hi : (Item.global x).Regular) :
    x.keywords = [] ∨ ∃ g, x.keywords = [("const".toList, g)] := by
  have hmem : x.keywords.map Prod.fst ∈ Kind.global.openings := hi.supported
  simp only [Kind.openings, List.mem_cons, List.not_mem_nil, or_false, List.map_eq_nil_iff,
    List.map_eq_singleton_iff] at hmem
  rcases hmem with h | ⟨⟨w, g⟩, h, rfl⟩
  · exact Or.inl h
  · exact Or.inr ⟨g, h⟩

/-- Behind the end of a word of a regular global variable that is the keyword of a uniform, there is
at most one word. -/
theorem Item.Regular.length_of_words_global {x : GlobalText} (hi : (Item.global x).Regular)
    {g : Text} {pre ps : List (Text × Text)}
    (hwords : (Item.global x).words = pre ++ (w ++ "uniform".toList, g) :: ps) :
    ps.length ≤ 1 := by
  replace hwords : x.keywords ++ [(x.type.text, x.gap), (x.toLayout.name.text, x.space)] =
    pre ++ (w ++ "uniform".toList, g) :: ps := hwords
  have hcount := congrArg List.length hwords
  simp only [List.length_append, List.length_cons, List.length_nil] at hcount
  rcases hi.words_global with hnone | ⟨g', hconst⟩
  · rw [hnone, List.length_nil] at hcount
    omega
  · rw [hconst, List.length_singleton] at hcount
    refine Nat.le_of_not_lt fun htwo => ?_
    obtain rfl : pre = [] := List.length_eq_zero_iff.1 (by omega)
    rw [hconst] at hwords
    have hword := congrArg List.length (Prod.mk.inj (List.cons.inj hwords).1).1
    rw [List.length_append] at hword
    have hlens : "const".toList.length = 5 ∧ "uniform".toList.length = 7 := ⟨rfl, rfl⟩
    omega

theorem kind_of_uniform (hi : i.Regular) (hturn : i.kind ∉ Kind.uniform.earlier)
    (hab : i.text = a ++ b) (hb : b ≠ [])
    (h : Form.uniformForm.here b₀ start (b ++ following es).length (b ++ following es) = some m) :
    i.kind = .uniform := by
  obtain ⟨g, ps, d, r, hleads, hg, hlen⟩ := exists_leads_of_uniform h
  obtain ⟨c, g', rfl⟩ := List.exists_cons_of_ne_nil hg.1
  have hc : isBlank c = true := hg.2 c List.mem_cons_self
  have hkeyword : b ++ following es = "uniform".toList ++ c :: (g' ++ spaced ps ++ d :: r) := by
    rw [hleads.eq]
    simp
  cases i with
  | function x => exact absurd (by decide : Kind.function ∈ Kind.uniform.earlier) hturn
  | global x =>
    rw [Item.text_eq] at hab
    rcases hleads.front_or_behind (Item.spaced_words _) (Kind.isWordOrBlank_delimiter _) hab hb with
      ⟨pre, w, v, g, post, hwords, hqs, -⟩ | ⟨y, hy, -⟩
    · obtain ⟨hhead, rfl⟩ := List.cons.inj hqs
      obtain ⟨rfl, rfl⟩ := Prod.mk.inj hhead
      exact absurd hlen (Nat.not_le.2 (Nat.lt_succ_of_le (hi.length_of_words_global hwords)))
    · obtain ⟨z, rfl, hz⟩ := exists_concat hy hb
      rw [List.append_assoc] at hkeyword
      exact absurd hkeyword (hi.tame.not_keyword rfl hz hc)
  | uniform x => rfl
  | struct x =>
    rcases hleads.cases hab hb with ⟨pre, w, v, g, post, hwords, hqs, -⟩ | ⟨y, r', hy, hb', -⟩ |
      ⟨hkind, -⟩
    · obtain ⟨-, rfl⟩ := List.cons.inj hqs
      have hcount := congrArg List.length hwords
      rw [List.length_append, List.length_cons] at hcount
      have htwo : (Item.struct x).words.length = 2 := rfl
      omega
    · have hin := leads_in_struct hy ⟨hleads.spaced, hleads.ne_nil, hleads.stops, hb'⟩
      have hcount := hin.2
      rw [List.length_cons] at hcount
      omega
    · cases hkind
  | define x => exact absurd hkeyword (hi.tame.toTame.not_keyword (opensWord_following es) hab hc)

/-! ## Global variables -/

theorem exists_leads_of_global (h : Form.globalForm.here b₀ start t.length t = some m) :
    ∃ qs r, Leads qs '=' r t ∧
      (qs.length = 2 ∨ ∃ g ps, qs = ("const".toList, g) :: ps ∧ ps.length = 2) := by
  obtain ⟨x, hx⟩ := exists_layout_of_global h
  obtain ⟨u, rfl⟩ := text_prefix_of_here h
  obtain ⟨d, r, hleads, hd⟩ := x.exists_leads u
  obtain rfl := hd (hx.suits.value rfl)
  refine ⟨x.words, r, hx.text ▸ hleads, ?_⟩
  have hmem := hx.suits.opening
  simp only [Kind.openings, List.mem_cons, List.not_mem_nil, or_false, List.map_eq_nil_iff,
    List.map_eq_singleton_iff] at hmem
  rw [Layout.words]
  rcases hmem with h | ⟨⟨w, g⟩, h, rfl⟩
  · exact Or.inl (by rw [h]; rfl)
  · exact Or.inr ⟨g, _, by rw [h]; rfl, rfl⟩

theorem MacroText.isBlank_last_text (x : MacroText) :
    ∀ c ∈ x.text.getLast?, isBlank c = false := by
  unfold MacroText.text
  intro c hc
  rw [← List.append_assoc, ← List.append_assoc, ← List.append_assoc, List.getLast?_append,
    List.getLast?_eq_some_getLast x.content_ne, Option.some_or] at hc
  exact x.isBlank_last c (by rwa [List.getLast?_eq_some_getLast x.content_ne])

/-- A tame macro does not end in the keyword of a global variable. -/
theorem MacroText.Tame.const_ne {x : MacroText} (hx : x.Tame) {g z : Text} (hg : AllBlank g)
    (hz : AllBlank z) (hab : x.text = a ++ b) : "const".toList ++ z ≠ b ++ g := by
  intro hends
  have hlast : ∀ c ∈ b.getLast?, isBlank c = false := by
    intro c hc
    refine x.isBlank_last_text c ?_
    rw [hab, List.getLast?_append, Option.mem_def.1 hc]
    rfl
  have hkeyword : ∀ c ∈ ("const".toList).getLast?, isBlank c = false := by
    rintro _ ⟨⟩
    decide
  obtain ⟨rfl, -⟩ := suffix_unique hz hg hkeyword hlast hends
  exact hx.const ⟨a, hab.symm⟩

theorem Item.two_le_length_words (h : i.kind = .global) : 2 ≤ i.words.length := by
  cases i with
  | global x =>
    show 2 ≤ x.toLayout.words.length
    simp [Layout.words]
  | function x | uniform x | struct x | define x => cases h

theorem kind_of_global (hi : i.Regular) (hturn : i.kind ∉ Kind.global.earlier)
    (hab : i.text = a ++ b) (hb : b ≠ [])
    (h : Form.globalForm.here b₀ start (b ++ following es).length (b ++ following es) = some m) :
    i.kind = .global := by
  obtain ⟨qs, r, hleads, hqs⟩ := exists_leads_of_global h
  rcases hleads.cases hab hb with ⟨-, -, -, -, -, -, -, hd, -⟩ | ⟨y, r', hy, hb', -⟩ |
    ⟨hkind, j, g, pre, hj, hd, hg, hpre, hwords, hspaced⟩
  · exact @Kind.delimiter_injective _ .global hd.symm
  · cases i with
    | function x => exact absurd (by decide : Kind.function ∈ Kind.global.earlier) hturn
    | global x => rfl
    | uniform x => exact absurd (List.append_eq_nil_iff.1 hy.symm).2 hb
    | struct x =>
      have hin := leads_in_struct hy ⟨hleads.spaced, hleads.ne_nil, hleads.stops, hb'⟩
      exact absurd hin.1 (by decide)
    | define x =>
      have hone := hi.tame.global a qs r' (hb' ▸ hab) hleads.spaced
      rcases hqs with htwo | ⟨g, ps, rfl, htwo⟩
      · omega
      · rw [List.length_cons] at hone
        omega
  · -- a macro ends in the keyword of the global variable in the next line
    have htwo := Item.two_le_length_words (@Kind.delimiter_injective j.kind .global hd.symm)
    have hcount := congrArg List.length hwords
    rw [List.length_append] at hcount
    have hpos := List.length_pos_iff.2 hpre
    rcases hqs with hshort | ⟨z, ps, rfl, hlong⟩
    · omega
    · rw [List.length_cons] at hcount
      obtain ⟨p, rfl⟩ := List.length_eq_one_iff.1 (by omega : pre.length = 1)
      obtain ⟨rfl, -⟩ := List.cons.inj hwords
      cases i with
      | define x =>
        have hends : "const".toList ++ z = b ++ g := by simpa using hspaced
        exact absurd hends (hi.tame.const_ne hg.2 hleads.spaced.2.1 hab)
      | function x | global x | uniform x | struct x => cases hkind

/-! ## Structs -/

theorem MacroText.newline_not_mem {x : MacroText} (h : (Item.define x).Supported) :
    '\n' ∉ x.text := by
  have hdefine : '\n' ∉ "#define".toList := by decide
  have hgap : ∀ {g : Text}, IsLineGap g → '\n' ∉ g := fun hg hmem =>
    (hg.2 _ hmem).elim (fun h => absurd h (by decide)) fun h => absurd h (by decide)
  have hname : '\n' ∉ x.name := fun hmem => absurd (x.isIdentifier_name.2 _ hmem) (by decide)
  unfold MacroText.text
  simp only [List.mem_append, not_or]
  exact ⟨hdefine, hgap x.isLineGap, hname, hgap x.isLineGap', h⟩

theorem Item.exists_define (h : i.kind = .define) : ∃ x, i = .define x := by
  cases i with
  | define x => exact ⟨x, rfl⟩
  | function x | global x | uniform x | struct x => cases h

theorem Kind.late_cases {k : Kind} (h : k ∉ Kind.struct.earlier) : k = .struct ∨ k = .define := by
  cases k <;> revert h <;> decide

theorem kind_of_struct (hi : i.Regular) (hturn : i.kind ∉ Kind.struct.earlier)
    (hab : i.text = a ++ b) (hbefore : a ≠ [] → b₀ = a.getLast?)
    (h : Form.structForm.here b₀ start (b ++ following es).length (b ++ following es) = some m) :
    i.kind = .struct := by
  obtain ⟨hline, u, g, n, s, f, s', r, hu, -, -, -, -, -, ht, -⟩ := exists_of_struct h
  refine (Kind.late_cases hturn).resolve_right fun hdefine => ?_
  obtain ⟨x, rfl⟩ := Item.exists_define hdefine
  by_cases ha : a = []
  · subst ha
    -- a macro begins with another character
    have hhead : '#' :: ("define".toList ++ (x.gap ++ (x.name ++ (x.gap' ++ x.content))) ++
        following es) = u ++ (structText g n s f s' ++ r) := by
      rw [← ht, show b = x.text from hab.symm]
      rfl
    obtain rfl := hu.eq_nil (by decide) hhead
    exact absurd (List.cons.inj hhead).1 (by decide)
  · -- and it stays in its line
    obtain ⟨c, hc⟩ := Option.isSome_iff_exists.1 (List.getLast?_isSome.2 ha)
    rw [hbefore ha, hc] at hline
    obtain rfl : c = '\n' := Option.some.inj (hline.resolve_left nofun)
    have hmem : '\n' ∈ x.text := by
      rw [show x.text = a ++ b from hab]
      exact List.mem_append_left b (List.mem_of_getLast? hc)
    exact MacroText.newline_not_mem hi.supported hmem

/-! ## Imports and exports -/

theorem TypedName.not_mem_text (x : TypedName) (hc : isWordOrBlank c = false) : c ∉ x.text := by
  have hspaced : Spaced x.words :=
    (spaced_last x.isIdentifier_name x.isBlank_trail).cons x.isIdentifier_type x.isGap
  intro hmem
  have hword : isWordOrBlank c = true := (List.mem_append.1 hmem).elim
    (fun h => isWordOrBlank_of_isBlank (x.isBlank_lead c h)) (hspaced.forall_mem c)
  rw [hc] at hword
  cases hword

theorem FunctionText.not_mem_inside (x : FunctionText) (hc : isWordOrBlank c = false)
    (hne : c ≠ ',') : c ∉ x.inside := by
  refine fun hmem => forall_mem_join (P := (· ≠ c)) ?_ (fun t ht d hd => ?_) c hmem rfl
  · simpa using hne.symm
  · obtain ⟨p, -, rfl⟩ := List.mem_map.1 ht
    exact fun hdc => p.not_mem_text hc (hdc ▸ hd)

theorem StructText.not_mem_inside (x : StructText) (hc : isWordOrBlank c = false)
    (hne : c ≠ ';') : c ∉ x.inside := by
  have hinner : c ∉ x.inner := fun hmem => by
    rw [isWordOrBlank_of_isBlank (x.isBlank_inner c hmem)] at hc
    cases hc
  simp only [inside, List.mem_append, List.mem_flatMap, List.mem_singleton, not_or]
  refine ⟨?_, hinner⟩
  rintro ⟨p, -, hmem | hmem⟩
  · exact p.not_mem_text hc hmem
  · exact hne hmem

/-- Behind the parenthesis of a function a word and a brace are found in the body only. -/
theorem FunctionText.infix_of_behind {x : FunctionText} {g : Text} (hw : IsIdentifier w)
    (hg : AllBlank g) (hy : (Item.function x).behind = y ++ (w ++ (g ++ '{' :: r))) :
    w ++ (g ++ ['{']) <:+: x.body := by
  have hbrace : isWordOrBlank '{' = false := by decide
  have hblank : ∀ {g : Text}, AllBlank g → '{' ∉ g := fun hg hmem => absurd (hg _ hmem) (by decide)
  have hhead : '{' ∉ x.inside ++ ')' :: x.between := by
    simp only [List.mem_append, List.mem_cons, not_or]
    exact ⟨x.not_mem_inside hbrace (by decide), by decide, hblank x.isBlank_between⟩
  have hword : '{' ∉ w ++ g := by
    simp only [List.mem_append, not_or]
    exact ⟨fun hmem => absurd (hw.2 _ hmem) (by decide), hblank hg⟩
  have heq : (x.inside ++ ')' :: x.between) ++ '{' :: (x.body ++ ['}']) =
      y ++ (w ++ g) ++ '{' :: r := by
    refine Eq.trans ?_ (hy.trans (by simp))
    simp [Item.behind]
  by_cases hmem : '{' ∈ y
  · obtain ⟨y₁, y₂, rfl, hy₁⟩ := List.eq_append_cons_of_mem hmem
    have hcut : (x.inside ++ ')' :: x.between) ++ '{' :: (x.body ++ ['}']) =
        y₁ ++ '{' :: (y₂ ++ (w ++ g) ++ '{' :: r) := heq.trans (by simp)
    obtain ⟨-, hbody⟩ := first_unique hhead hy₁ hcut
    obtain ⟨z, -, hz⟩ := exists_cons_concat hbody (by decide)
    exact ⟨y₂, z, by rw [hz]; simp⟩
  · -- the word would have to be the parenthesis in front of the first brace
    have hfront : '{' ∉ y ++ (w ++ g) := fun h => (List.mem_append.1 h).elim hmem hword
    obtain ⟨hends, -⟩ := first_unique hhead hfront heq
    have hclose : (x.inside ++ [')']) ++ x.between = (y ++ w) ++ g := by
      simpa using hends
    have hlast : ∀ c ∈ (y ++ w).getLast?, isBlank c = false :=
      forall_mem_getLast?_append hw.1
        (fun c hc => isBlank_of_isSized (isSized_of_isWord (hw.2 c hc))) y
    obtain ⟨heq, -⟩ := suffix_unique x.isBlank_between hg (by simp; decide) hlast hclose
    obtain ⟨z, hz, -⟩ := exists_concat heq hw.1
    exact absurd (hw.2 ')' (hz ▸ by simp)) (by decide)

/-- A word in front of a brace is the name of a struct, or stands in the body of a function. -/
theorem Leads.cases_brace {g : Text} (hw : IsIdentifier w) (hg : AllBlank g)
    (hab : i.text = a ++ b) (hb : b ≠ []) (h : Leads [(w, g)] '{' r (b ++ following es)) :
    (∃ x u, i = .struct x ∧ x.name = u ++ w ∧ a = "struct".toList ++ x.gap ++ u ∧
      r = x.inside ++ '}' :: (x.between ++ ';' :: following es)) ∨
    ∃ x, i = .function x ∧ w ++ (g ++ ['{']) <:+: x.body := by
  rcases h.cases hab hb with ⟨pre, u, v, g', post, hwords, hqs, hd, hr, ha⟩ | ⟨y, r', hy, hb', -⟩ |
    ⟨-, j, g', pre, -, hd, -, -, hwords, -⟩
  · obtain ⟨hhead, rfl⟩ := List.cons.inj hqs
    obtain ⟨rfl, rfl⟩ := Prod.mk.inj hhead
    cases i with
    | struct x =>
      have hpair : [("struct".toList, x.gap)] ++ [(x.name, x.space)] = pre ++ [(u ++ w, g)] :=
        hwords
      obtain ⟨rfl, hlast⟩ := List.append_inj' hpair rfl
      refine Or.inl ⟨x, u, rfl, (Prod.mk.inj (List.cons.inj hlast).1).1, ?_, ?_⟩
      · simpa using ha
      · rw [hr]
        simp [Item.behind]
    | function x | global x | uniform x | define x =>
      cases @Kind.delimiter_injective .struct _ hd
  · rw [spaced_cons, spaced_nil, List.append_nil, List.append_assoc] at hb'
    rw [hb'] at hy
    have hmem : '{' ∈ i.behind := hy ▸ by simp
    cases i with
    | function x => exact Or.inr ⟨x, rfl, x.infix_of_behind hw hg hy⟩
    | global x =>
      have hinit : '{' ∈ x.init ++ [';'] := hmem
      simp [x.opening_not_mem] at hinit
    | uniform x => cases hmem
    | struct x =>
      have hin : Leads [(w, g)] '{' r' b := ⟨h.spaced, h.ne_nil, h.stops, by rw [hb']; simp⟩
      exact absurd (leads_in_struct (hb' ▸ hy) hin).1 (by decide)
    | define x => exact absurd (List.mem_cons_of_mem '#' hmem) x.brace_not_mem
  · have hcount := congrArg List.length hwords
    have htwo : j.words.length = 2 := by
      cases j with
      | struct x => rfl
      | function x | global x | uniform x | define x =>
        cases @Kind.delimiter_injective .struct _ hd
    rw [List.length_append, htwo, List.length_singleton] at hcount
    omega

theorem not_import (hab : i.text = a ++ b) (hb : b ≠ []) :
    Statement.importForm.here b₀ start (b ++ following es).length (b ++ following es) = none := by
  refine Option.eq_none_iff_forall_not_mem.2 fun m h => ?_
  obtain ⟨g, x, s, r, hg, hx, hs, ht⟩ := exists_of_import h
  have hword : IsIdentifier "import".toList := by decide
  have hleads : Leads [("import".toList, g)] '{' (x ++ '}' :: (s ++ ("from".toList ++ r)))
      (b ++ following es) :=
    ⟨spaced_last hword hg, List.cons_ne_nil _ _, by decide, by rw [ht]; simp⟩
  rcases hleads.cases_brace hword hg hab hb with ⟨y, u, rfl, -, -, heq⟩ | ⟨y, rfl, hin⟩
  · -- behind the fields of a struct comes a semicolon
    obtain ⟨-, htail⟩ := first_unique hx (y.not_mem_inside (by decide) (by decide)) heq
    have hends : isBlank 'f' = false ∧ isBlank ';' = false := by decide
    obtain ⟨-, hfrom⟩ := prefix_unique hs y.isBlank_between
      (by simpa using hends.1) (by simpa using hends.2) htail
    exact absurd (List.cons.inj hfrom).1 (by decide)
  · exact y.import_not_infix g hg hin

theorem Item.isBlank_last (i : Item) : ∀ c ∈ i.text.getLast?, isBlank c = false := by
  have hends : ∀ {t : Text} {d : Char}, isBlank d = false →
      ∀ c ∈ (t ++ [d]).getLast?, isBlank c = false := fun hd =>
    forall_mem_getLast?_append (List.cons_ne_nil _ _) (by simpa using hd) _
  by_cases hdefine : i.kind = .define
  · obtain ⟨x, rfl⟩ := Item.exists_define hdefine
    exact x.isBlank_last_text
  · rw [i.text_eq]
    by_cases hne : i.behind = []
    · rw [hne]
      exact hends (isBlank_of_not_isWordOrBlank i.kind.isWordOrBlank_delimiter)
    · obtain ⟨u, c, hu, hc⟩ := Item.exists_of_behind hdefine hne
      rw [hu, ← List.cons_append, ← List.append_assoc]
      exact hends (isBlank_of_not_isWordOrBlank hc)

theorem not_export (hab : i.text = a ++ b) (hb : b ≠ []) (hbefore : a ≠ [] → b₀ = a.getLast?) :
    Statement.exportForm.here b₀ start (b ++ following es).length (b ++ following es) = none := by
  refine Option.eq_none_iff_forall_not_mem.2 fun m h => ?_
  obtain ⟨hline, v, g, r, hv, hg, ht⟩ := exists_of_export h
  have hword : IsIdentifier "export".toList := by decide
  -- the indentation does not reach to the end of the declaration
  obtain ⟨b', rfl, hb', hcut⟩ : ∃ b', b = v ++ b' ∧ b' ≠ [] ∧
      b' ++ following es = "export".toList ++ (g ++ '{' :: r) := by
    have hblank : ¬ ∀ c ∈ b, c = ' ' ∨ c = '\t' := fun hall => by
      have hlast := i.isBlank_last
      rw [hab, List.getLast?_append, List.getLast?_eq_some_getLast hb] at hlast
      have hno := hlast _ rfl
      rcases hall _ (List.getLast_mem hb) with h | h <;> rw [h] at hno <;>
        exact absurd hno (by decide)
    rcases List.append_eq_append_iff.1 ht with ⟨z, rfl, -⟩ | ⟨z, rfl, hz⟩
    · exact absurd (fun c hc => hv c (List.mem_append_left z hc)) hblank
    · refine ⟨z, rfl, ?_, hz.symm⟩
      rintro rfl
      exact hblank fun c hc => hv c (by simpa using hc)
  have hleads : Leads [("export".toList, g)] '{' r (b' ++ following es) :=
    ⟨spaced_last hword hg, List.cons_ne_nil _ _, by decide, by rw [hcut]; simp⟩
  rw [← List.append_assoc] at hab
  rcases hleads.cases_brace hword hg hab hb' with ⟨x, u, rfl, hname, hfront, -⟩ | ⟨x, rfl, hin⟩
  · rcases u.eq_nil_or_concat with rfl | ⟨u, c, rfl⟩
    · exact x.name_ne hname
    -- no line begins within the name of a struct
    have hc : isWord c = true := x.isIdentifier_name.2 c (hname ▸ by simp)
    rw [List.concat_eq_append, ← List.append_assoc] at hfront
    rcases v.eq_nil_or_concat with rfl | ⟨v, d, rfl⟩
    · rw [List.append_nil] at hfront
      have hne : a ≠ [] := by simp [hfront]
      rw [hbefore hne, hfront, List.getLast?_concat] at hline
      obtain rfl : c = '\n' := Option.some.inj (hline.resolve_left nofun)
      exact absurd hc (by decide)
    · rw [List.concat_eq_append, ← List.append_assoc] at hfront
      obtain rfl : d = c := (List.cons.inj (List.append_inj' hfront rfl).2).1
      rcases hv d (by simp) with rfl | rfl <;> exact absurd hc (by decide)
  · exact x.export_not_infix g hg hin

end ShaderLink
