import ShaderLink.Proofs.Agreement
import ShaderLink.Proofs.Emptying

/-!
# Well-formed declarations are taken as a whole

A module is a list of well-formed declarations.  Each of them is found as a whole, and nothing else
remains, if and only if the forms provide for all of them (`takesWhole_iff`): functions and global
variables without a precision in front, and macros that end in their line.
-/

namespace ShaderLink

open Text Pattern

variable {i : Item} {items : List Item} {ks : List Kind} {kind : Kind} {path : Text} {o : Outline}
  {s : Reading} {d : Declaration}

/-- Each declaration is found once, with its kind, its name and its whole text, and all that is left
of the code are blanks. -/
structure Outline.TakesWhole (o : Outline) (items : List Item) : Prop where
  gists : (o.declarations.map Declaration.gist).Perm (items.map Item.gist)
  blank : o.code.AllBlank

/-! ## What remains -/

/-- What is there when the declarations of some kinds have been taken out. -/
def remaining (ks : List Kind) (items : List Item) : List Slot :=
  items.map fun i => (i, decide (i.kind ∉ ks))

theorem remaining_nil (items : List Item) : remaining [] items = items.map (·, true) :=
  List.map_congr_left fun _ _ => rfl

theorem map_without_remaining (ks : List Kind) (items : List Item) (kind : Kind) :
    (remaining ks items).map (Slot.without kind) = remaining (ks ++ [kind]) items := by
  rw [remaining, remaining, List.map_map]
  refine List.map_congr_left fun i _ => ?_
  simp [Slot.without, bne, beq_eq_decide]

theorem thoseOf_remaining (h : kind ∉ ks) (items : List Item) :
    thoseOf kind (remaining ks items) = items.filter (·.kind == kind) := by
  rw [thoseOf, remaining, List.filter_map, List.map_map]
  refine (List.map_id' _).trans (List.filter_congr fun i _ => ?_)
  by_cases hi : i.kind = kind
  · simp [hi, h]
  · simp [hi]

theorem left_remaining (h : ∀ i ∈ items, i.Regular) (ks : List Kind) :
    Left ks (remaining ks items) := by
  intro e he
  obtain ⟨i, hi, rfl⟩ := List.mem_map.1 he
  exact ⟨h i hi, of_decide_eq_true⟩

theorem allBlank_remaining (h : ∀ k, k ∈ ks) (items : List Item) :
    AllBlank (sourceOf (remaining ks items)) := by
  have hnewline : AllBlank ['\n'] := by simpa [AllBlank] using isBlank_newline
  refine forall_mem_join hnewline fun t ht => ?_
  obtain ⟨e, he, rfl⟩ := List.mem_map.1 ht
  obtain ⟨i, -, rfl⟩ := List.mem_map.1 he
  have hshown : decide (i.kind ∉ ks) = false := decide_eq_false (not_not.2 (h _))
  rw [hshown]
  exact allBlank_shown_false i

/-- The elements in order of a key are the elements. -/
theorem perm_flatMap_filter {α κ : Type} [BEq κ] [LawfulBEq κ] (f : α → κ) {ks : List κ}
    (hks : ks.Nodup) {l : List α} (h : ∀ a ∈ l, f a ∈ ks) :
    (ks.flatMap fun k => l.filter (f · == k)).Perm l := by
  induction ks generalizing l with
  | nil => rw [List.eq_nil_iff_forall_not_mem.2 fun a ha => nomatch h a ha]; rfl
  | cons k ks ih =>
    obtain ⟨hk, hks⟩ := List.nodup_cons.1 hks
    let others : List α := l.filter fun a => !(f a == k)
    have hothers : (ks.flatMap fun k' => l.filter (f · == k')) =
        ks.flatMap fun k' => others.filter (f · == k') := by
      refine List.flatMap_congr fun k' hk' => ?_
      rw [List.filter_filter]
      refine List.filter_congr fun a _ => ?_
      have hne : k' ≠ k := fun heq => hk (heq ▸ hk')
      by_cases ha : f a = k'
      · simp [ha, hne]
      · simp [ha]
    have hmem : ∀ a ∈ others, f a ∈ ks := by
      intro a ha
      obtain ⟨ha, hne⟩ := List.mem_filter.1 ha
      exact (List.mem_cons.1 (h a ha)).resolve_left (by simpa using hne)
    rw [List.flatMap_cons, hothers]
    exact ((ih hks hmem).append_left _).trans (List.filter_append_perm _ l)

/-! ## Reading a module of declarations -/

/-- The declarations of some kinds have been found and taken out. -/
structure Reading.TookOut (path : Text) (items : List Item) (ks : List Kind) (s : Reading) :
    Prop where
  path_eq : s.path = path
  code_eq : s.code = sourceOf (remaining ks items)
  gists : s.declarations.map Declaration.gist =
    ks.flatMap fun k => (items.filter (·.kind == k)).map Item.gist

theorem Reading.TookOut.ends_declarations (hitems : ∀ i ∈ items, i.Regular)
    (h : s.TookOut path items kind.earlier) :
    Ends (fun _ s' => s'.TookOut path items (kind.earlier ++ [kind])) (fun _ => False)
      (Reader.declarations (Pass.ofKind kind) s) := by
  have hturn : kind ∉ kind.earlier := by cases kind <;> decide
  obtain ⟨ds, hds, hgists⟩ := Pass.ofKind_eq s.path kind (left_remaining hitems kind.earlier)
  rw [← h.code_eq] at hds
  unfold Reader.declarations
  apply ends_bind.2
  unfold Reader.onCode
  rw [hds]
  refine ⟨h.path_eq, ?_, ?_⟩
  · exact congrArg sourceOf (map_without_remaining kind.earlier items kind)
  · show (s.declarations ++ ds).map Declaration.gist = _
    rw [List.map_append, h.gists, hgists, thoseOf_remaining hturn]
    simp

theorem Reading.TookOut.ends_inTurn (hitems : ∀ i ∈ items, i.Regular)
    (h : s.TookOut path items []) :
    Ends (fun _ s' => s'.TookOut path items Kind.inTurn) (fun _ => False)
      (Kind.inTurn.forM (fun kind => Reader.declarations (Pass.ofKind kind) >>= fun _ => pure ())
        s) := by
  refine (ends_forM_rest (I := fun ls s' => ∃ ks, Kind.inTurn = ks ++ ls ∧ s'.TookOut path items ks)
    (fun kind ls s' hs' => ?_) ⟨[], rfl, h⟩).imp fun _ s' ⟨ks, hks, hs'⟩ => ?_
  · obtain ⟨ks, hks, hs'⟩ := hs'
    obtain rfl := Kind.earlier_eq hks
    refine (hs'.ends_declarations hitems).bind fun _ s'' hs'' => ?_
    exact ⟨kind.earlier ++ [kind], by simp [hks], hs''⟩
  · rw [List.append_nil] at hks
    exact hks ▸ hs'

theorem onCode_eq {α : Type} {pass : Text → Pass α} {a : α} {left : Text}
    (h : pass s.path s.code = (.ok a, left)) :
    Reader.onCode pass s = (.ok a, { s with code := left }) := by
  unfold Reader.onCode
  rw [h]

/-- Imports and exports come first, and none are found. -/
theorem Reader.ends_everything_items (hpath : firstSegment path ≠ [])
    (hitems : ∀ i ∈ items, i.Regular) :
    Ends (fun _ s => s.TookOut path items Kind.inTurn) (fun _ => False)
      (Reader.everything ⟨.unread path (sourceOf (items.map (·, true))), []⟩) := by
  let unread : Reading := ⟨.unread path (sourceOf (items.map (·, true))), []⟩
  have hleft : Left [] (items.map (·, true)) := remaining_nil items ▸ left_remaining hitems []
  have himports : Reader.imports unread = (.ok [], unread) := by
    unfold Reader.imports
    rw [bind_apply, onCode_eq (Pass.imports_eq hpath hleft)]
    rfl
  have hexports : Reader.exports unread = (.ok [], unread) := by
    unfold Reader.exports
    rw [bind_apply, onCode_eq (Pass.exports_eq path hleft)]
    rfl
  have hunread : unread.TookOut path items [] :=
    ⟨rfl, congrArg sourceOf (remaining_nil items).symm, rfl⟩
  rw [Reader.everything_eq, bind_apply, himports]
  simp only
  rw [bind_apply, hexports]
  refine (hunread.ends_inTurn hitems).bind fun _ s' hs' => ?_
  exact ⟨hs'.path_eq, hs'.code_eq, hs'.gists⟩

/-- Declarations that the forms provide for are found as a whole. -/
theorem exists_takesWhole (hpath : firstSegment path ≠ []) (hitems : ∀ i ∈ items, i.Regular) :
    ∃ o, Outline.ofCode path (sourceOf (items.map (·, true))) = .ok o ∧ o.TakesWhole items := by
  have hends := Reader.ends_everything_items hpath hitems
  unfold Outline.ofCode Outline.step
  revert hends
  rcases Reader.everything ⟨.unread path (sourceOf (items.map (·, true))), []⟩ with ⟨e | u, s⟩
  · exact False.elim
  · intro hs
    have hall : ∀ k, k ∈ Kind.inTurn := by
      intro k
      cases k <;> decide
    refine ⟨s.toOutline, rfl, ?_, ?_⟩
    · rw [hs.gists, ← List.map_flatMap]
      exact (perm_flatMap_filter Item.kind (by decide) fun i _ => hall i.kind).map Item.gist
    · rw [hs.code_eq]
      exact allBlank_remaining hall items

/-! ## What the forms do not provide for -/

section Converse

variable {code : Text} {parts : List Text} {m : Match} {t : Text}

/-- A function that is found has two words in front of its parameters. -/
theorem FunctionText.supported_of_search {x : FunctionText} {stop : Nat}
    (hm : Form.functionHead.search code = some m) (h : (code.take stop).drop m.start = x.text) :
    (Item.function x).Supported := by
  obtain ⟨b, u, v, rfl, hhere⟩ := exists_cut_of_search hm
  obtain ⟨w, g, w', g', p, s, r, hw, hg, hw', hg', -, -, hv, hstart, -⟩ := exists_of_function hhere
  have hstop : isWordOrBlank '(' = false := by decide
  have htext : x.text ++ v.drop (stop - u.length) = v := by
    rw [← h, hstart, List.drop_take, List.drop_left, List.take_append_drop]
  generalize v.drop (stop - u.length) = e at htext
  have hcut : spaced x.words ++
      '(' :: (x.inside ++ ')' :: (x.between ++ '{' :: (x.body ++ '}' :: e))) =
      spaced [(w, g), (w', g')] ++ '(' :: (p ++ ')' :: (s ++ '{' :: r)) := by
    rw [← hv, ← htext]
    simp [FunctionText.text]
  obtain ⟨hwords, -⟩ := Spaced.unique (Item.function x).spaced_words (spaced_pair hw hg hw' hg')
    (stops_cons hstop _) (stops_cons hstop _) hcut
  have htwo : x.words.length = 2 := congrArg List.length hwords
  show x.precision = []
  simpa [FunctionText.words] using htwo

theorem Layout.keywords_eq {x y : Layout} (h : x.text = y.text) : x.keywords = y.keywords := by
  obtain ⟨d, r, hx, -⟩ := x.exists_leads []
  obtain ⟨d', r', hy, -⟩ := y.exists_leads []
  have heq : spaced x.words ++ d :: r = spaced y.words ++ d' :: r' := by
    rw [← hx.eq, ← hy.eq, h]
  obtain ⟨hwords, -⟩ := Spaced.unique hx.spaced hy.spaced (stops_cons hx.stops _)
    (stops_cons hy.stops _) heq
  exact (List.append_inj' hwords rfl).1

/-- A macro that is found is within a line. -/
theorem MacroText.supported_of_sequence {x : MacroText} (hm : m ∈ Form.defineForm.sequence code)
    (h : (m.group 1).trim = x.text) : (Item.define x).Supported := by
  obtain ⟨b, start, t, m, offset, hhere, rfl⟩ := exists_here_of_sequence hm
  obtain ⟨-, i, g, n, p, g', c, r, -, hg, hn, hp, hg', hc, -, -, -, -, hone, -⟩ :=
    exists_of_define hhere
  obtain ⟨u, b', rfl, hb', hlast⟩ := exists_blank_end c
  replace h : (macroText g n p g' (u ++ b')).trim = x.text := hone ▸ h
  have hunique : ∀ {e : Text}, (∀ d ∈ e.head?, isBlank d = true) → x.text = macroHead g n p ++ e →
      x.gap' ++ x.content = e := by
    intro e he heq
    rw [x.text_eq, macroText_eq] at heq
    exact (macroHead_unique x.isLineGap hg x.isIdentifier_name hn (Or.inl rfl) hp
      (x.isLineGap'.isBlank_head _) he heq).2.2
  by_cases hu : u = []
  · rw [hu, List.nil_append, trim_macroText_of_blank hn hp hg' hb'] at h
    have hnil := hunique (e := []) nofun (by rw [← h, List.append_nil])
    exact absurd (List.append_eq_nil_iff.1 hnil).1 x.isLineGap'.1
  · rw [trim_macroText hu hlast hb', macroText_eq] at h
    have htail := hunique (hg'.isBlank_head u) h.symm
    have hline : '\n' ∉ g' ++ u := by
      simp only [List.mem_append, not_or]
      exact ⟨hg'.not_mem, fun hmem => hc (List.mem_append_left b' hmem)⟩
    exact fun hmem => hline (htail ▸ List.mem_append_right x.gap' hmem)

/-- What is found as a whole is provided for. -/
theorem Taken.supported (h : Taken path code d parts) (hd : d.gist = i.gist) : i.Supported := by
  induction h with
  | @function code front body m stop parameters hm hextent hblock hfront =>
    obtain ⟨htrim, -⟩ := exists_reread_of_function hm rfl hblock hfront
    cases i with
    | function x =>
      refine x.supported_of_search hm (htrim.symm.trans ?_)
      exact (Prod.mk.inj (Prod.mk.inj hd).2).2
    | global x | uniform x | struct x | define x => cases (Prod.mk.inj hd).1
  | next hm hextent hkind h ih => exact ih hd
  | @«variable» code m kind form hkind hm =>
    obtain ⟨y, hy, -⟩ := exists_layout_of_sequence hkind hm
    cases i with
    | global x =>
      obtain rfl : kind = .global := (Prod.mk.inj hd).1
      have htext : m.text.trim = x.toLayout.text := (Prod.mk.inj (Prod.mk.inj hd).2).2
      rw [hy.text, y.trim_text] at htext
      show x.keywords.map Prod.fst ∈ Kind.global.openings
      rw [← Layout.keywords_eq htext]
      exact hy.suits.opening
    | uniform x => trivial
    | function x | struct x | define x =>
      obtain rfl := (Prod.mk.inj hd).1
      cases hkind
  | struct hm hfields =>
    cases i with
    | struct x => trivial
    | function x | global x | uniform x | define x => cases (Prod.mk.inj hd).1
  | define hm =>
    cases i with
    | define x => exact x.supported_of_sequence hm (Prod.mk.inj (Prod.mk.inj hd).2).2
    | function x | global x | uniform x | struct x => cases (Prod.mk.inj hd).1

end Converse

/-! ## Modules -/

/-- Whatever may stand in a list of well-formed declarations, if nothing in values and macros can be
the beginning of another declaration: all declarations are found as a whole, and nothing else is
left, if and only if the forms provide for each of them. -/
theorem takesWhole_iff (htame : ∀ i ∈ items, i.Tame) :
    (∃ o, Outline.ofCode path (sourceOf (items.map (·, true))) = .ok o ∧ o.TakesWhole items) ↔
      firstSegment path ≠ [] ∧ ∀ i ∈ items, i.Supported := by
  refine ⟨fun ⟨o, ho, hwhole⟩ => ⟨firstSegment_ne_nil_of_ofCode ho, fun i hi => ?_⟩,
    fun ⟨hpath, hsupported⟩ => exists_takesWhole hpath fun i hi => ⟨hsupported i hi, htame i hi⟩⟩
  obtain ⟨d, hd, hgist⟩ := List.mem_map.1 (hwhole.gists.mem_iff.2 (List.mem_map_of_mem hi))
  obtain ⟨kind, hfound⟩ := exists_isFoundIn_of_ofCode ho d hd
  obtain ⟨seen, parts, -, htaken⟩ := hfound.exists_taken
  exact htaken.supported hgist

/-! ## A module with a declaration of each kind -/

/-- Whether a text is tame can be seen from its ends. -/
theorem tame_of_tails {t : Text} (h : t.tails.all (fun s =>
    (s.head? != some '(' || s.tail.contains ')') && (!"uniform".toList.isPrefixOf s ||
      (s.drop "uniform".toList.length).head?.any fun c => !isBlank c)) = true) :
    Tame t := by
  have hends : ∀ {s}, s <:+ t → _ := fun hs => Bool.and_eq_true_iff.1
    (List.all_eq_true.1 h _ ((List.mem_tails _ t).2 hs))
  refine ⟨fun y z ht => ?_, fun y z ht => ?_⟩
  · simpa using (hends (s := '(' :: z) ⟨y, ht.symm⟩).1
  · have hbegins : "uniform".toList.isPrefixOf ("uniform".toList ++ z) = true :=
      List.isPrefixOf_iff_prefix.2 (List.prefix_append _ z)
    have hnext := (hends (s := "uniform".toList ++ z) ⟨y, ht.symm⟩).2
    rw [hbegins, List.drop_left, Bool.not_true, Bool.false_or, Option.any_eq_true] at hnext
    simpa using hnext

theorem balanced_of_not_mem {t : Text} (h : '{' ∉ t) (h' : '}' ∉ t) : Balanced t := by
  induction t with
  | nil => exact .nil
  | cons c t ih =>
    simp only [List.mem_cons, not_or] at h h'
    exact .other (Ne.symm h.1) (Ne.symm h'.1) (ih h.2 h'.2)

theorem Balanced.append {t u : Text} (ht : Balanced t) (hu : Balanced u) : Balanced (t ++ u) := by
  induction ht with
  | nil => exact hu
  | other hopen hclose _ ih => exact .other hopen hclose ih
  | @block t v ht _ _ ih =>
    have hcut : '{' :: (t ++ '}' :: v) ++ u = '{' :: (t ++ '}' :: (v ++ u)) := by simp
    exact hcut ▸ .block ht ih

theorem isGap_space : IsGap [' '] := ⟨List.cons_ne_nil _ _, by simpa [AllBlank] using isBlank_space⟩

theorem isLineGap_space : IsLineGap [' '] := ⟨List.cons_ne_nil _ _, by simp⟩

/-- A word without an array size. -/
def SizedWord.ofWord (w : Text) (h : IsIdentifier w) : SizedWord where
  word := w
  size := []
  isIdentifier := h
  isSized_size := nofun
  opensWord_size := rfl

/-- A type and a name with a blank between them. -/
def TypedName.ofWords (type name : Text) (h : IsIdentifier type) (h' : IsIdentifier name) :
    TypedName where
  lead := []
  type := type
  gap := [' ']
  name := name
  trail := []
  isBlank_lead := nofun
  isIdentifier_type := h
  isGap := isGap_space
  isIdentifier_name := h'
  isBlank_trail := nofun

def FunctionText.sample : FunctionText where
  precision := []
  type := "float".toList
  gap := [' ']
  name := "f".toList
  space := []
  parameters := [.ofWords "float".toList "a".toList (by decide) (by decide),
    .ofWords "vec2".toList "b".toList (by decide) (by decide)]
  between := [' ']
  body := " if (a > b.y) ".toList ++ '{' :: (" return a; ".toList ++ '}' :: " return b.y; ".toList)
  opening := by decide
  isGap_precision := nofun
  isIdentifier_type := by decide
  isGap := isGap_space
  isIdentifier_name := by decide
  isBlank_space := nofun
  isBlank_between := isGap_space.2
  balanced := (balanced_of_not_mem (by decide) (by decide)).append
    (.block (balanced_of_not_mem (by decide) (by decide))
      (balanced_of_not_mem (by decide) (by decide)))
  import_not_infix := fun g _ h => absurd (h.subset (by simp : 'p' ∈ _)) (by decide)
  export_not_infix := fun g _ h => absurd (h.subset (by simp : 'p' ∈ _)) (by decide)

/-- A global variable with some keywords. -/
def GlobalText.sample (ks : List (Text × Text)) (hks : ∀ k ∈ ks, IsIdentifier k.1 ∧ IsGap k.2)
    (h : ks.map Prod.fst ∈ precisions ++ precisions.map ("const".toList :: ·)) : GlobalText where
  keywords := ks
  type := .ofWord "float".toList (by decide)
  gap := [' ']
  name := .ofWord "x".toList (by decide)
  space := [' ']
  value := some " max(1.0, 2.0)".toList
  isKeyword := hks
  isGap := isGap_space
  isBlank_space := isGap_space.2
  semicolon_not_mem := by simp
  init := " max(1.0, 2.0)".toList
  value_eq := rfl
  opening := h
  exists_not_blank := ⟨'m', by decide, by decide⟩
  opening_not_mem := by decide
  closing_not_mem := by decide

def UniformText.sample : UniformText where
  keywords := [("uniform".toList, [' ']), ("lowp".toList, [' '])]
  type := .ofWord "float".toList (by decide)
  gap := [' ']
  name := .ofWord "t".toList (by decide)
  space := []
  value := none
  isKeyword := by simpa using ⟨⟨by decide, isGap_space⟩, by decide, isGap_space⟩
  isGap := isGap_space
  isBlank_space := nofun
  semicolon_not_mem := nofun
  value_eq := rfl
  opening := by decide

def StructText.sample : StructText where
  gap := [' ']
  name := "S".toList
  space := [' ']
  fields := [.ofWords "vec2".toList "a".toList (by decide) (by decide),
    .ofWords "float".toList "b".toList (by decide) (by decide)]
  inner := [' ']
  between := []
  isGap := isGap_space
  isIdentifier_name := by decide
  name_ne := by decide
  isBlank_space := isGap_space.2
  fields_ne := List.cons_ne_nil _ _
  isBlank_inner := isGap_space.2
  isBlank_between := nofun

def MacroText.sample : MacroText where
  gap := [' ']
  name := "PI".toList
  gap' := [' ']
  content := "3.14".toList
  isLineGap := isLineGap_space
  isIdentifier_name := by decide
  isLineGap' := isLineGap_space
  content_ne := List.cons_ne_nil _ _
  isBlank_last := by
    rintro _ ⟨⟩
    decide
  opening_not_mem := by decide
  closing_not_mem := by decide
  semicolon_not_mem := by decide
  continued := fun y z h => absurd (h ▸ List.mem_append_right y (List.mem_cons_self ..)) (by decide)

/-- A declaration of each kind. -/
def sampleItems : List Item :=
  [.function FunctionText.sample,
    .global (GlobalText.sample [("const".toList, [' '])]
      (by simpa using ⟨by decide, isGap_space⟩) (by decide)),
    .uniform UniformText.sample, .struct StructText.sample, .define MacroText.sample]

theorem MacroText.tame_sample : MacroText.sample.Tame where
  toTame := tame_of_tails (by decide)
  global := fun y ps z h _ => absurd
    (h ▸ List.mem_append_right y (List.mem_append_right _ (List.mem_cons_self ..))) (by decide)
  const := by decide

theorem tame_sampleItems : ∀ i ∈ sampleItems, i.Tame := by
  simpa [sampleItems, Item.Tame] using ⟨tame_of_tails (by decide), MacroText.tame_sample⟩

theorem takesWhole_iff_kinds : (∀ i ∈ sampleItems, i.Tame) ∧
    ∃ o, Outline.ofCode "m".toList (sourceOf (sampleItems.map (·, true))) = .ok o ∧
      o.TakesWhole sampleItems := by
  refine ⟨tame_sampleItems, (takesWhole_iff tame_sampleItems).2 ⟨by decide, ?_⟩⟩
  simp [sampleItems, Item.Supported, FunctionText.sample, GlobalText.sample, MacroText.sample,
    Kind.openings]

/-- The form of global variables does not know the precision, so that it is left over. -/
theorem not_takesWhole_precision : ¬ ∀ items : List Item,
    ∃ o, Outline.ofCode "m".toList (sourceOf (items.map (·, true))) = .ok o ∧
      o.TakesWhole items := by
  intro hall
  let x := GlobalText.sample [("highp".toList, [' '])] (by simpa using ⟨by decide, isGap_space⟩)
    (by decide)
  obtain ⟨o, ho, hwhole⟩ := hall [.global x]
  have hread : (Outline.ofCode "m".toList (sourceOf [(.global x, true)])).map
      (·.declarations.map Declaration.gist) =
      .ok [(.global, "x".toList, "float x = max(1.0, 2.0);".toList)] := by
    decide +kernel
  rw [show [Item.global x].map (·, true) = [(.global x, true)] from rfl] at ho
  rw [ho] at hread
  have hgists : o.declarations.map Declaration.gist = _ := Except.ok.inj hread
  exact absurd (hgists ▸ hwhole.gists) (by decide +kernel)

end ShaderLink
