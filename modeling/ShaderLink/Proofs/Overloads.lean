import ShaderLink.Proofs.Agreement
import ShaderLink.Proofs.Sorting
import ShaderLink.Proofs.Statements
import ShaderLink.Proofs.TypedNames

/-!
# Overloads

The key of a function is its id with the types of its parameters.  A type is the word in front of
the name of the parameter; an array size behind the name is no part of it.  So two functions of one
name have different keys exactly if their parameters differ in number or in one of these words
(`Pass.key_ne_iff`), and only then the order of the two is known to the precedence of a text.
-/

namespace ShaderLink

open Text Pattern Cursor

/-! ## Types as they are written -/

/-- An array size with its brackets, or nothing. -/
def IsSize (s : Text) : Prop := s = [] ∨ ∃ q, ']' ∉ q ∧ s = '[' :: (q ++ [']'])

/-- The type of a parameter as it is written: the word in front of the name, and the array size
behind it. -/
structure WrittenType where
  base : Text
  size : Text
deriving DecidableEq

namespace WrittenType

/-- The text is the type, a name and the array size, perhaps with blanks at the end. -/
def Declares (x : WrittenType) (v : Text) : Prop :=
  ∃ g n b b', IsIdentifier x.base ∧ IsGap g ∧ IsIdentifier n ∧ AllBlank b ∧ IsSize x.size ∧
    AllBlank b' ∧ v = x.base ++ (g ++ (n ++ (b ++ (x.size ++ b'))))

/-- The type in a parameter: it is read from the first place on from which the rest is a type, a
name and an array size.  What stands in front are qualifiers. -/
def OfParameter (x : WrittenType) (t : Text) : Prop :=
  ∃ u v, t = u ++ v ∧ x.Declares v ∧
    ∀ u' v' y, t = u' ++ v' → Declares y v' → u.length ≤ u'.length

variable {x y : WrittenType} {t v : Text}

theorem isWord_head_of_size {b s b' : Text} (hb : AllBlank b) (hs : IsSize s) (hb' : AllBlank b') :
    ∀ c ∈ (b ++ (s ++ b')).head?, isWord c = false := by
  have hblank : ∀ {t : Text}, AllBlank t → ∀ c ∈ t.head?, isWord c = false := fun ht c hc =>
    isWord_of_isBlank (ht c (List.mem_of_mem_head? hc))
  cases b with
  | cons d b => exact fun c hc => hblank hb c (by simpa using hc)
  | nil =>
    rcases hs with rfl | ⟨q, -, rfl⟩
    · simpa using hblank hb'
    · rintro c ⟨⟩
      decide

/-- What stands behind the name tells the array size. -/
theorem size_unique {b s b' a r a' : Text} (hb : AllBlank b) (hs : IsSize s) (hb' : AllBlank b')
    (ha : AllBlank a) (hr : IsSize r) (ha' : AllBlank a')
    (h : b ++ (s ++ b') = a ++ (r ++ a')) : s = r := by
  have hnil : ∀ {b b' a r a' : Text}, AllBlank b → AllBlank b' → IsSize r →
      b ++ b' = a ++ (r ++ a') → r = [] := by
    intro b b' a r a' hb hb' hr h
    refine hr.resolve_right ?_
    rintro ⟨q, -, rfl⟩
    have hmem : '[' ∈ b ++ b' := by simp [h]
    have hblank : isBlank '[' = true := (List.mem_append.1 hmem).elim (hb _) (hb' _)
    exact absurd hblank (by decide)
  rcases hs with rfl | ⟨q, hq, rfl⟩
  · exact (hnil hb hb' hr (by simpa using h)).symm
  · rcases hr with rfl | ⟨q', hq', rfl⟩
    · exact hnil ha ha' (Or.inr ⟨q, hq, rfl⟩) (by simpa using h.symm)
    · obtain ⟨-, htail⟩ := prefix_unique hb ha (p := isBlank) (by rintro c ⟨⟩; decide)
        (by rintro c ⟨⟩; decide) h
      have htail : q ++ ']' :: b' = q' ++ ']' :: a' := by simpa using htail
      rw [(first_unique hq hq' htail).1]

theorem Declares.unique (hx : x.Declares v) (hy : y.Declares v) : x = y := by
  obtain ⟨g, n, b, b', hbase, hg, hn, hb, hs, hb', rfl⟩ := hx
  obtain ⟨g₂, n₂, b₂, b₂', hbase₂, hg₂, hn₂, hb₂, hs₂, hb₂', h⟩ := hy
  have hgap : ∀ {g : Text} (r : Text), IsGap g → ∀ c ∈ (g ++ r).head?, isWord c = false := by
    intro g r hg c hc
    obtain ⟨d, g, rfl⟩ := List.exists_cons_of_ne_nil hg.1
    obtain rfl : d = c := by simpa using hc
    exact isWord_of_isBlank (hg.2 d List.mem_cons_self)
  have hname : ∀ {n : Text} (r : Text), IsIdentifier n → ∀ c ∈ (n ++ r).head?,
      isBlank c = false := by
    intro n r hn c hc
    obtain ⟨d, n, rfl⟩ := List.exists_cons_of_ne_nil hn.1
    obtain rfl : d = c := by simpa using hc
    exact isBlank_of_isSized (isSized_of_isWord (hn.2 d List.mem_cons_self))
  obtain ⟨hbases, h⟩ := prefix_unique hbase.2 hbase₂.2 (hgap _ hg) (hgap _ hg₂) h
  obtain ⟨-, h⟩ := prefix_unique hg.2 hg₂.2 (hname _ hn) (hname _ hn₂) h
  obtain ⟨-, h⟩ := prefix_unique hn.2 hn₂.2 (isWord_head_of_size hb hs hb')
    (isWord_head_of_size hb₂ hs₂ hb₂') h
  have hsizes := size_unique hb hs hb' hb₂ hs₂ hb₂' h
  cases x
  cases y
  simp_all

theorem Declares.ofParameter (h : x.Declares t) : x.OfParameter t :=
  ⟨[], t, rfl, h, fun _ _ _ _ _ => Nat.zero_le _⟩

theorem OfParameter.unique (hx : x.OfParameter t) (hy : y.OfParameter t) : x = y := by
  obtain ⟨u, v, rfl, hv, hfirst⟩ := hx
  obtain ⟨u', v', ht, hv', hfirst'⟩ := hy
  have hle := hfirst u' v' y ht hv'
  have hge := hfirst' u v x rfl hv
  obtain ⟨rfl, rfl⟩ := List.append_inj ht (Nat.le_antisymm hle hge)
  exact hv.unique hv'

end WrittenType

/-! ## Reading types -/

section Reading

variable {b : Option Char} {start index : Nat} {t : Text} {m : Match} {p : Parameter}

theorem isBlank_of_atTextEnd {k k' : Cursor} (h : textEnd.run k some = some k') :
    AllBlank k.rest := by
  have h : (if k.atTextEnd then some k else none) = some k' := h
  split at h
  · rename_i hend
    unfold Cursor.atTextEnd at hend
    split at hend
    · rename_i hrest
      exact hrest ▸ nofun
    · rename_i c hrest
      rw [hrest]
      exact List.forall_mem_singleton.2 (beq_iff_eq.1 hend ▸ by decide)
    · cases hend
  · cases h

theorem accepts_size {s : Text} :
    (optional (lit '[' ++ many (noneOf "]") ++ lit ']')).Accepts s ↔ IsSize s := by
  rw [accepts_optional]
  constructor
  · rintro (⟨_, c, ⟨o, q, ho, hq, rfl⟩, hc, rfl⟩ | rfl)
    · obtain rfl := accepts_lit.1 ho
      obtain rfl := accepts_lit.1 hc
      exact Or.inr ⟨q, not_mem_of_noneOf rfl hq, by simp⟩
    · exact Or.inl rfl
  · rintro (rfl | ⟨q, hq, rfl⟩)
    · exact Or.inr rfl
    · refine Or.inl ⟨'[' :: q, [']'], ⟨['['], q, accepts_lit.2 rfl, fun c hc => ?_, rfl⟩,
        accepts_lit.2 rfl, rfl⟩
      have hne : c ≠ ']' := fun h => hq (h ▸ hc)
      simpa [isAmong] using hne

theorem exists_declares_of_here (h : Parameter.declarator.here b start t.length t = some m) :
    ∃ x : WrittenType, x.Declares t ∧ m.group 1 = x.base := by
  obtain ⟨k', hrun, -, -, hgroup⟩ := exists_run_of_here h
  let k : Cursor := ⟨b, t, t.length, []⟩
  have hk : k.Counts := rfl
  have hrun : identifier.run k (fun k₁ => gap.run (k₁.remember 1 (k.upTo k₁)) fun k₂ =>
      identifier.run k₂ fun k₃ =>
        (blanks ++ optional (lit '[' ++ many (noneOf "]") ++ lit ']') ++ blanks).run
          (k₃.remember 2 (k₂.upTo k₃)) fun k₄ => textEnd.run k₄ some) = some k' := hrun
  obtain ⟨w, r, hw, hr, h⟩ := exists_of_run rfl rfl hrun
  rw [remember_eq] at h
  generalize hs₁ : Cursor.upTo _ _ = s₁ at h
  have htype : s₁.text = w := hs₁ ▸ text_upTo_after hk hr
  obtain ⟨g, r, hg, hr', h⟩ := exists_of_run_after rfl rfl hr h
  obtain ⟨n, r, hn, hr, h⟩ := exists_of_run_after rfl rfl hr' h
  rw [remember_eq] at h
  obtain ⟨_, r, ⟨_, b', ⟨e, s, he, hs, rfl⟩, hb', rfl⟩, hr', h⟩ :=
    exists_of_run_after rfl rfl hr h
  have hblank := isBlank_of_atTextEnd h
  obtain rfl := exists_of_run_textEnd h
  rw [rest_withGroups, rest_after_of_eq hr'] at hblank
  refine ⟨⟨w, s⟩, ⟨g, n, e, b' ++ r, accepts_identifier.1 hw, accepts_gap.1 hg,
    accepts_identifier.1 hn, he, accepts_size.1 hs, ?_, ?_⟩, (hgroup 0).trans htype⟩
  · exact fun c hc => (List.mem_append.1 hc).elim (hb' c) (hblank c)
  · exact hr'.trans (by simp)

theorem isSome_here_declarator (b : Option Char) (start : Nat) (t : Text) :
    (Parameter.declarator.here b start t.length t).isSome = true ↔
      ∃ x : WrittenType, x.Declares t := by
  constructor
  · intro h
    obtain ⟨m, hm⟩ := Option.isSome_iff_exists.1 h
    obtain ⟨x, hx, -⟩ := exists_declares_of_here hm
    exact ⟨x, hx⟩
  · rintro ⟨x, g, n, e, e', hw, hg, hn, he, hs, he', ht⟩
    let p : Pattern := group 1 identifier ++ gap ++ group 2 identifier ++ blanks ++
      optional (lit '[' ++ many (noneOf "]") ++ lit ']') ++ blanks
    have haccepts : p.Accepts t := by
      refine ⟨_, e', ⟨_, x.size, ⟨_, e, ⟨_, n, ⟨x.base, g, accepts_identifier.2 hw,
        accepts_gap.2 hg, rfl⟩, accepts_identifier.2 hn, rfl⟩, he, rfl⟩, accepts_size.2 hs, rfl⟩,
        he', ?_⟩
      rw [ht]
      simp
    have hk : Cursor.Counts ⟨b, t, t.length, []⟩ := rfl
    have hrest : t = t ++ [] := (List.append_nil t).symm
    have hrun : (p.run ⟨b, t, t.length, []⟩ fun k => textEnd.run k some).isSome := by
      refine (isSome_run_iff rfl blind_textEnd hk).2 ⟨t, [], haccepts, hrest, ?_⟩
      rw [run_textEnd (rest_after_of_eq hrest)]
      rfl
    exact (Option.isSome_map ..).trans hrun

/-- A parameter that is read has the type that is written in its text. -/
theorem Parameter.exists_type_of_ofText (h : Parameter.ofText index t = .ok p) :
    ∃ x : WrittenType, x.OfParameter t.trim ∧ x.base = p.type := by
  unfold Parameter.ofText at h
  cases hm : declarator.search t.trim with
  | none =>
    rw [hm] at h
    cases h
  | some m =>
    rw [hm] at h
    cases h
    obtain ⟨b, u, v, hcut, hhere, hfirst⟩ := exists_first_of_search isSome_here_declarator hm
    obtain ⟨x, hx, hbase⟩ := exists_declares_of_here hhere
    refine ⟨x, ⟨u, v, hcut, hx, fun u' v' y ht hy => ?_⟩, hbase.symm⟩
    by_contra hlt
    -- a place in front of the first one
    obtain ⟨z, rfl, rfl⟩ : ∃ z, u = u' ++ z ∧ v' = z ++ v := by
      rcases List.append_eq_append_iff.1 (hcut.symm.trans ht) with ⟨z, rfl, -⟩ | ⟨z, hu, hv⟩
      · exact absurd (List.length_append ▸ Nat.le_add_right _ _) hlt
      · exact ⟨z, hu, hv⟩
    refine hfirst u' z rfl ?_ ⟨y, hy⟩
    rintro rfl
    exact hlt (by simp)

end Reading

/-! ## Lists of parameters -/

/-- The types of the parameters between the parentheses of a function: none in an empty list or in
`void`, and otherwise one in each of the texts between the commas. -/
def ListsTypes (list : Text) (types : List WrittenType) : Prop :=
  if list.trim = [] ∨ list.trim = "void".toList then types = []
  else ∃ texts, splitCommas list.trim = .ok texts ∧
    List.Forall₂ (fun t x => WrittenType.OfParameter x t.trim) texts types

section Lists

variable {list t : Text} {ts : List Text} {types : List WrittenType} {ps : List Parameter}
  {index : Nat}

theorem Parameter.exists_types_of_ofTextsFrom (h : Parameter.ofTextsFrom index ts = .ok ps) :
    ∃ types : List WrittenType,
      List.Forall₂ (fun t x => WrittenType.OfParameter x t.trim) ts types ∧
        types.map (·.base) = ps.map (·.type) := by
  induction ts generalizing index ps with
  | nil =>
    cases h
    exact ⟨[], .nil, rfl⟩
  | cons t ts ih =>
    obtain ⟨p, hp, h⟩ := exists_of_bind_eq_ok h
    obtain ⟨others, hothers, h⟩ := exists_of_bind_eq_ok h
    cases h
    obtain ⟨x, hx, hbase⟩ := Parameter.exists_type_of_ofText hp
    obtain ⟨types, htypes, hbases⟩ := ih hothers
    exact ⟨x :: types, .cons hx htypes, by rw [List.map_cons, List.map_cons, hbase, hbases]⟩

/-- The parameters that are read have the types that are written. -/
theorem Parameter.exists_types_of_ofList (h : Parameter.ofList list = .ok ps) :
    ∃ types, ListsTypes list types ∧ types.map (·.base) = ps.map (·.type) := by
  unfold Parameter.ofList at h
  unfold ListsTypes
  simp only [Bool.or_eq_true, List.isEmpty_iff, beq_iff_eq] at h
  split at h
  · rename_i hnone
    cases h
    exact ⟨[], by rw [if_pos hnone], rfl⟩
  · rename_i hsome
    obtain ⟨texts, htexts, h⟩ := exists_of_bind_eq_ok h
    obtain ⟨types, htypes, hbases⟩ := Parameter.exists_types_of_ofTextsFrom h
    exact ⟨types, by rw [if_neg hsome]; exact ⟨texts, htexts, htypes⟩, hbases⟩

theorem ListsTypes.unique {types' : List WrittenType} (h : ListsTypes list types)
    (h' : ListsTypes list types') : types = types' := by
  unfold ListsTypes at h h'
  split at h
  · rename_i hnone
    rw [if_pos hnone] at h'
    rw [h, h']
  · rename_i hsome
    rw [if_neg hsome] at h'
    obtain ⟨texts, htexts, h⟩ := h
    obtain ⟨texts', htexts', h'⟩ := h'
    obtain rfl := Except.ok.inj (htexts.symm.trans htexts')
    have hunique : Relator.RightUnique fun (t : Text) x => WrittenType.OfParameter x t.trim :=
      fun _ _ _ hx hy => hx.unique hy
    exact hunique.forall₂ h h'

theorem ListsTypes.of_declares {x : WrittenType}
    (hsome : ¬ (list.trim = [] ∨ list.trim = "void".toList))
    (hsplit : splitCommas list.trim = .ok [t]) (hx : x.Declares t.trim) : ListsTypes list [x] := by
  rw [ListsTypes, if_neg hsome]
  exact ⟨[t], hsplit, .cons hx.ofParameter .nil⟩

theorem ListsTypes.isIdentifier_base (h : ListsTypes list types) :
    ∀ x ∈ types, IsIdentifier x.base := by
  unfold ListsTypes at h
  split at h
  · exact h ▸ nofun
  · obtain ⟨texts, -, h⟩ := h
    induction h with
    | nil => exact nofun
    | cons hx _ ih =>
      obtain ⟨u, v, -, ⟨g, n, b, b', hbase, -⟩, -⟩ := hx
      exact List.forall_mem_cons.2 ⟨hbase, ih⟩

end Lists

/-! ## Keys -/

/-- The lists differ in their length, or at some position in the word in front of the name. -/
def DifferInBase (xs ys : List WrittenType) : Prop :=
  xs.length ≠ ys.length ∨ ∃ (i : Nat) (x y : WrittenType),
    xs[i]? = some x ∧ ys[i]? = some y ∧ x.base ≠ y.base

theorem differInBase_iff {xs ys : List WrittenType} :
    DifferInBase xs ys ↔ xs.map (·.base) ≠ ys.map (·.base) := by
  constructor
  · rintro (hlength | ⟨i, x, y, hx, hy, hne⟩) h
    · exact hlength (by simpa using congrArg List.length h)
    · have hi := congrArg (·[i]?) h
      simp only [List.getElem?_map, hx, hy, Option.map_some, Option.some.injEq] at hi
      exact hne hi
  · intro h
    by_contra hsame
    simp only [DifferInBase, not_or, not_not, not_exists, not_and] at hsame
    obtain ⟨hlength, hbases⟩ := hsame
    refine h (List.ext_getElem (by simpa using hlength) fun i hi hi' => ?_)
    rw [List.length_map] at hi hi'
    simpa using hbases i _ _ (List.getElem?_eq_getElem hi) (List.getElem?_eq_getElem hi')

/-- Identifiers can be told from the text in which they stand with commas between them. -/
theorem join_commas_inj {us vs : List Text} (hu : ∀ u ∈ us, IsIdentifier u)
    (hv : ∀ v ∈ vs, IsIdentifier v) : join [','] us = join [','] vs ↔ us = vs := by
  have hcomma : ∀ {ws : List Text}, (∀ w ∈ ws, IsIdentifier w) → ∀ w ∈ ws, ',' ∉ w :=
    fun h w hw hmem => absurd ((h w hw).2 _ hmem) (by decide)
  have hnil : ∀ {ws : List Text}, (∀ w ∈ ws, IsIdentifier w) → join [','] ws = [] → ws = [] := by
    intro ws h hjoin
    by_contra hne
    have hsplit := split_join hne (hcomma h)
    rw [hjoin] at hsplit
    exact (h [] (hsplit ▸ List.mem_singleton_self _)).1 rfl
  refine ⟨fun h => ?_, congrArg _⟩
  by_cases hempty : us = [] ∨ vs = []
  · rcases hempty with rfl | rfl
    · exact (hnil hv h.symm).symm
    · exact hnil hu h
  · obtain ⟨hus, hvs⟩ := not_or.1 hempty
    rw [← split_join hus (hcomma hu), h, split_join hvs (hcomma hv)]

/-- Here a type, the name and the list in parentheses come next. -/
def BeginsFunction (name list t : Text) : Prop :=
  ∃ w g g' r, IsIdentifier w ∧ IsGap g ∧ IsIdentifier name ∧ AllBlank g' ∧ ')' ∉ list ∧
    t = spaced [(w, g), (name, g')] ++ '(' :: (list ++ ')' :: r)

/-- The function is found in the code, and the list stands between its parentheses.  Each function
is looked for in what those before it have left. -/
inductive HasList (path : Text) : Text → Declaration → Text → Prop
  | first {code list : Text} {m : Match} {stop : Nat} {parameters : List Parameter}
      (hm : Form.functionHead.search code = some m)
      (hextent : Pass.functionExtent path code m = .ok (stop, parameters))
      (hbegins : BeginsFunction (m.group 3) list (code.drop m.start)) :
      HasList path code (.ofSource .function (m.group 3) path m.start
        ((code.take stop).drop m.start) parameters) list
  | later {code list : Text} {m : Match} {stop : Nat} {parameters : List Parameter}
      {d : Declaration} (hm : Form.functionHead.search code = some m)
      (hextent : Pass.functionExtent path code m = .ok (stop, parameters))
      (h : HasList path (code.blankOut m.start stop) d list) : HasList path code d list

/-- The function is found in the code with parameters of these types. -/
def HasTypes (path code : Text) (d : Declaration) (types : List WrittenType) : Prop :=
  ∃ list, HasList path code d list ∧ ListsTypes list types

section Functions

variable {path code list t : Text} {m : Match} {stop : Nat} {parameters : List Parameter}
  {d d' : Declaration} {types types' : List WrittenType}

theorem ofList_of_functionExtent (h : Pass.functionExtent path code m = .ok (stop, parameters)) :
    Parameter.ofList (m.group 4) = .ok parameters := by
  obtain ⟨_, -, h⟩ := exists_of_bind_eq_ok (mapError_eq_ok_iff.1 h)
  obtain ⟨ps, hps, h⟩ := exists_of_bind_eq_ok h
  cases h
  exact hps

theorem beginsFunction_of_search (hm : Form.functionHead.search code = some m) :
    BeginsFunction (m.group 3) (m.group 4) (code.drop m.start) := by
  obtain ⟨b, u, v, rfl, hhere⟩ := exists_cut_of_search hm
  obtain ⟨w, g, w', g', p, s, r, hw, hg, hw', hg', hp, -, hv, hstart, -, rfl, rfl⟩ :=
    exists_of_function hhere
  rw [hstart, List.drop_left]
  exact ⟨w, g, g', _, hw, hg, hw', hg', hp, hv⟩

/-- A name and a list can be read from a text in one way only. -/
theorem BeginsFunction.unique {name list' : Text} (h : BeginsFunction name list t)
    (h' : BeginsFunction name list' t) : list = list' := by
  obtain ⟨w, g, g', r, hw, hg, hn, hg', hlist, rfl⟩ := h
  obtain ⟨w₂, g₂, g₂', r₂, hw₂, hg₂, -, hg₂', hlist', ht⟩ := h'
  have hstops : ∀ t, Stops ('(' :: t) := stops_cons (by decide)
  obtain ⟨-, htail⟩ := Spaced.unique (spaced_pair hw hg hn hg') (spaced_pair hw₂ hg₂ hn hg₂')
    (hstops _) (hstops _) ht
  exact (first_unique hlist hlist' (List.cons.inj htail).2).1

theorem HasList.ofList (h : HasList path code d list) :
    Parameter.ofList list = .ok d.parameters := by
  induction h with
  | first hm hextent hbegins =>
    obtain rfl := hbegins.unique (beginsFunction_of_search hm)
    exact ofList_of_functionExtent hextent
  | later _ _ _ ih => exact ih

theorem HasList.kind_path (h : HasList path code d list) : d.kind = .function ∧ d.path = path := by
  induction h with
  | first => exact ⟨rfl, rfl⟩
  | later _ _ _ ih => exact ih

/-- The signature is made of the words in front of the names. -/
theorem HasTypes.signature_eq (h : HasTypes path code d types) :
    d.signature = join [','] (types.map (·.base)) := by
  obtain ⟨list, hlist, htypes⟩ := h
  obtain ⟨types', htypes', hbases⟩ := Parameter.exists_types_of_ofList hlist.ofList
  obtain rfl := htypes.unique htypes'
  rw [Declaration.signature, hbases]

theorem HasTypes.isIdentifier (h : HasTypes path code d types) :
    ∀ w ∈ types.map (·.base), IsIdentifier w := by
  obtain ⟨list, -, htypes⟩ := h
  exact List.forall_mem_map.2 htypes.isIdentifier_base

theorem HasTypes.key_eq (h : HasTypes path code d types) :
    d.key = idOf path d.name ++ ':' :: join [','] (types.map (·.base)) := by
  obtain ⟨list, hlist, -⟩ := id h
  obtain ⟨hkind, hpath⟩ := hlist.kind_path
  rw [Declaration.key, hkind, h.signature_eq, Declaration.id, hpath]

/-- Two functions of one name have different keys exactly if their types differ in a word in front
of a name, or in number. -/
theorem HasTypes.key_ne_iff (h : HasTypes path code d types) (h' : HasTypes path code d' types')
    (hname : d.name = d'.name) : d.key ≠ d'.key ↔ DifferInBase types types' := by
  rw [differInBase_iff, h.key_eq, h'.key_eq, hname]
  exact not_congr (by simp [join_commas_inj h.isIdentifier h'.isIdentifier])

theorem Pass.exists_types_of_functions {found : List Declaration} {left : Text}
    (h : Pass.functions path code = (.ok found, left)) (hd : d ∈ found) :
    ∃ types, HasTypes path code d types := by
  obtain ⟨list, hlist⟩ := (ends_functionsFrom_of
    (P := fun code d => ∃ list, HasList path code d list)
    (fun hm hextent => ⟨_, .first hm hextent (beginsFunction_of_search hm)⟩)
    (fun hm hextent ⟨list, hlist⟩ => ⟨list, .later hm hextent hlist⟩) _ code).of_eq_ok h d hd
  obtain ⟨types, htypes, -⟩ := Parameter.exists_types_of_ofList hlist.ofList
  exact ⟨types, list, hlist, htypes⟩

end Functions

/-! ## Precedence -/

/-- Wherever the two are among the declarations of a text, each is a node of its own.  If `d` uses
`c`, then it comes after it, unless `c` uses `d` as well and is declared later. -/
def KeptApart (d c : Declaration) : Prop :=
  ∀ ds g, d ∈ ds → c ∈ ds → Precedence.ofDeclarations ds = .ok g →
    d.key ≠ c.key ∧ d.key ∈ Table.keys g ∧ c.key ∈ Table.keys g ∧
      (d.uses c.id → ¬ (c.uses d.id ∧ d.index < c.index) → Precedence.Waits g d.key c.key ∧
        ∀ out, Precedence.sort ds = .ok out → ∀ i j : Fin out.length,
          out.get i = d → out.get j = c → j < i)

section Precedence

open Precedence

variable {d c : Declaration}

theorem keptApart_of_key_ne (h : d.key ≠ c.key) : KeptApart d c := by
  intro ds g hd hc hg
  have hclash : ¬ Clashing ds := by
    intro hclash
    obtain ⟨_, -, _, -, -, he⟩ := ofDeclarations_eq_error hclash
    exact nomatch he.symm.trans hg
  obtain ⟨g', hg', hgraph⟩ := graphOf_ofDeclarations hclash
  obtain rfl := Except.ok.inj (hg'.symm.trans hg)
  refine ⟨h, (hgraph.mem_keys _).2 ⟨d, hd, rfl⟩, (hgraph.mem_keys _).2 ⟨c, hc, rfl⟩,
    fun huses hlater => ?_⟩
  have hfollows : KeyFollows ds d.key c.key := ⟨d, hd, c, hc, rfl, rfl, huses, h, hlater⟩
  refine ⟨(hgraph.waits_iff _ _).2 hfollows, ?_⟩
  rintro out hout i j rfl rfl
  obtain ⟨out', hout', harranged⟩ := sort_of_acyclic hclash (sort_eq_ok_iff.1 ⟨out, hout⟩).2
  obtain rfl := Except.ok.inj (hout'.symm.trans hout)
  exact harranged.ordered i j hfollows

/-- Two declarations of one module are kept apart exactly if they have different keys. -/
theorem keptApart_iff (hpath : d.path = c.path) : KeptApart d c ↔ d.key ≠ c.key := by
  refine ⟨fun h => ?_, keptApart_of_key_ne⟩
  have hclash : ¬ Clashing [d, c] := by
    rintro ⟨a, ha, b, hb, -, -, -, hne⟩
    simp only [List.mem_cons, List.not_mem_nil, or_false] at ha hb
    rcases ha with rfl | rfl <;> rcases hb with rfl | rfl <;> simp [hpath] at hne
  obtain ⟨g, hg, -⟩ := graphOf_ofDeclarations hclash
  exact (h [d, c] g (by simp) (by simp) hg).1

end Precedence

/-- The functions that are found in a module have types, and two of one name have different keys
exactly if these differ in number or in a word in front of a name.  Just then they are kept apart,
whatever references they are given. -/
theorem Pass.functions_key_ne_iff {path code left : Text} {found : List Declaration}
    (h : Pass.functions path code = (.ok found, left)) :
    (∀ d ∈ found, ∃ types, HasTypes path code d types) ∧
    ∀ d ∈ found, ∀ d' ∈ found, d.name = d'.name → ∀ types types', HasTypes path code d types →
      HasTypes path code d' types' →
        (d.key ≠ d'.key ↔ DifferInBase types types') ∧
        ∀ rs rs', KeptApart { d with references := rs } { d' with references := rs' } ↔
          DifferInBase types types' := by
  refine ⟨fun d hd => Pass.exists_types_of_functions h hd, ?_⟩
  intro d _ d' _ hname types types' htypes htypes'
  have hkeys := htypes.key_ne_iff htypes' hname
  obtain ⟨list, hlist, -⟩ := htypes
  obtain ⟨list', hlist', -⟩ := htypes'
  have hpath : d.path = d'.path := hlist.kind_path.2.trans hlist'.kind_path.2.symm
  refine ⟨hkeys, fun rs rs' => Iff.trans ?_ hkeys⟩
  exact keptApart_iff (d := { d with references := rs }) (c := { d' with references := rs' }) hpath

/-- Three overloads, the last two of which differ in an array size only. -/
def sampleSizes : Text :=
  ("float f(const vec2 p) { return p.x; }\nfloat f(float a) { return f(vec2(a)); }\n" ++
    "float f(float a[2]) { return f(a[0]); }\n").toList

theorem functions_key_ne_iff_sample :
    ∃ found left, Pass.functions "m".toList sampleSizes = (.ok found, left) ∧
      found.map (·.key) = ["m/f:vec2".toList, "m/f:float".toList, "m/f:float".toList] ∧
      (∀ d ∈ found, ∃ types, HasTypes "m".toList sampleSizes d types) ∧
      ∀ d ∈ found, ∀ d' ∈ found, d.name = d'.name → ∀ types types',
        HasTypes "m".toList sampleSizes d types → HasTypes "m".toList sampleSizes d' types' →
          (d.key ≠ d'.key ↔ DifferInBase types types') ∧
          ∀ rs rs', KeptApart { d with references := rs } { d' with references := rs' } ↔
            DifferInBase types types' := by
  have hkeys : (Pass.functions "m".toList sampleSizes).1.map (List.map (·.key)) =
      .ok ["m/f:vec2".toList, "m/f:float".toList, "m/f:float".toList] := by decide +kernel
  obtain ⟨found, left, hrun⟩ : ∃ found left,
      Pass.functions "m".toList sampleSizes = (.ok found, left) :=
    exists_eq_ok (by decide +kernel)
  rw [hrun] at hkeys
  obtain ⟨htypes, hdiffer⟩ := Pass.functions_key_ne_iff hrun
  exact ⟨found, left, hrun, Except.ok.inj hkeys, htypes, hdiffer⟩

/-- A number and an array of two numbers. -/
def sampleArray : Text :=
  "float f(float a) { return a; }\nfloat f(float a[2]) { return f(a[0]); }\n".toList

/-- Overloads that differ in an array size have one key. -/
theorem not_key_ne_of_size :
    ¬ ∀ found left, Pass.functions "m".toList sampleArray = (.ok found, left) →
      ∀ d ∈ found, ∀ d' ∈ found, d.name = d'.name → ∀ types types',
        HasTypes "m".toList sampleArray d types → HasTypes "m".toList sampleArray d' types' →
          types ≠ types' → d.key ≠ d'.key := by
  intro h
  let m : Match := ⟨0, "float f(float a) \x7b".toList,
    [some "float f(float a)".toList, some "float".toList, some "f".toList, some "float a".toList]⟩
  let m' : Match := ⟨31, "float f(float a[2]) \x7b".toList, [some "float f(float a[2])".toList,
    some "float".toList, some "f".toList, some "float a[2]".toList]⟩
  let d := Declaration.ofSource .function "f".toList "m".toList 0
    ((sampleArray.take 30).drop 0) [⟨"a".toList, "float".toList, 0⟩]
  let d' := Declaration.ofSource .function "f".toList "m".toList 31
    (((sampleArray.blankOut 0 30).take 70).drop 31) [⟨"a".toList, "float".toList, 0⟩]
  have hm : Form.functionHead.search sampleArray = some m := by decide +kernel
  have hextent : Pass.functionExtent "m".toList sampleArray m =
      .ok (30, [⟨"a".toList, "float".toList, 0⟩]) := by decide +kernel
  have hm' : Form.functionHead.search (sampleArray.blankOut 0 30) = some m' := by decide +kernel
  have hextent' : Pass.functionExtent "m".toList (sampleArray.blankOut 0 30) m' =
      .ok (70, [⟨"a".toList, "float".toList, 0⟩]) := by decide +kernel
  have hfloat : IsIdentifier "float".toList := by decide
  have hgap : IsGap [' '] := ⟨List.cons_ne_nil _ _, List.forall_mem_singleton.2 (by decide)⟩
  have hd : HasTypes "m".toList sampleArray d [⟨"float".toList, []⟩] := by
    refine ⟨"float a".toList, .first hm hextent ⟨"float".toList, [' '], [], sampleArray.drop 16,
      hfloat, hgap, by decide, nofun, by decide, by decide +kernel⟩, ?_⟩
    exact .of_declares (t := "float a".toList) (by decide) (by decide +kernel)
      ⟨[' '], ['a'], [], [], hfloat, hgap, by decide, nofun, Or.inl rfl, nofun, by decide⟩
  have hd' : HasTypes "m".toList sampleArray d' [⟨"float".toList, "[2]".toList⟩] := by
    refine ⟨"float a[2]".toList, .later hm hextent (.first hm' hextent' ⟨"float".toList, [' '], [],
      sampleArray.drop 50, hfloat, hgap, by decide, nofun, by decide, by decide +kernel⟩), ?_⟩
    exact .of_declares (t := "float a[2]".toList) (by decide) (by decide +kernel)
      ⟨[' '], ['a'], [], [], hfloat, hgap, by decide, nofun, Or.inr ⟨['2'], by decide, rfl⟩, nofun,
        by decide⟩
  obtain ⟨found, left, hrun⟩ : ∃ found left,
      Pass.functions "m".toList sampleArray = (.ok found, left) := exists_eq_ok (by decide +kernel)
  have hfound : (Pass.functions "m".toList sampleArray).1 = .ok [d, d'] := by decide +kernel
  rw [hrun] at hfound
  obtain rfl := Except.ok.inj hfound
  exact h _ _ hrun d (by simp) d' (by simp) rfl _ _ hd hd' (by decide) (by decide +kernel)

end ShaderLink
