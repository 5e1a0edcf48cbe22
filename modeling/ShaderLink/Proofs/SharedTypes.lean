import ShaderLink.Proofs.Findings
import ShaderLink.Proofs.Greedy
import ShaderLink.Proofs.Overloads

/-!
# Fields that share a type

A declaration in a struct may have several declarators, that is names with or without an array size,
with commas between them: all of them have the type that stands in front of the first one.  What is
read is the same as if each declarator had a declaration of its own, and blanks make no difference
(`Parameter.ofFields_apart`).
-/

namespace ShaderLink

open Text Pattern Cursor

/-! ## Words -/

namespace Text

variable {w g b t : Text}

theorem splitWhere_of_forall {cut : Char → Bool} (hw : ∀ d ∈ w, cut d = false) :
    splitWhere cut w = [w] := by
  induction w with
  | nil => rfl
  | cons d w ih =>
    obtain ⟨hd, hw⟩ := List.forall_mem_cons.1 hw
    simp [splitWhere, ih hw, hd]

theorem words_append_cons {c : Char} (hc : isBlank c = true) (t u : Text) :
    words (t ++ c :: u) = words t ++ words u := by
  rw [words, splitWhere_append_cons isBlank hc, List.filter_append]
  rfl

theorem words_blank_append (hb : b.AllBlank) (t : Text) : words (b ++ t) = words t := by
  induction b with
  | nil => rfl
  | cons c b ih =>
    obtain ⟨hc, hb⟩ := List.forall_mem_cons.1 hb
    exact (words_append_cons hc [] (b ++ t)).trans (ih hb)

/-- A gap separates words. -/
theorem words_append (hg : IsGap g) (t u : Text) : words (t ++ (g ++ u)) = words t ++ words u := by
  obtain ⟨c, g, rfl⟩ := List.exists_cons_of_ne_nil hg.1
  obtain ⟨hc, hg⟩ := List.forall_mem_cons.1 hg.2
  rw [List.cons_append, words_append_cons hc, words_blank_append hg]

theorem words_append_blank (hb : b.AllBlank) (t : Text) : words (t ++ b) = words t := by
  cases b with
  | nil => rw [List.append_nil]
  | cons c b =>
    obtain ⟨hc, hb⟩ := List.forall_mem_cons.1 hb
    have hnone : words b = [] := List.append_nil b ▸ words_blank_append hb []
    rw [words_append_cons hc, hnone, List.append_nil]

theorem words_of_forall (hne : w ≠ []) (hw : ∀ c ∈ w, isBlank c = false) : words w = [w] := by
  rw [words, splitWhere_of_forall hw]
  simpa using hne

theorem isBlank_of_isIdentifier (hw : IsIdentifier w) : ∀ c ∈ w, isBlank c = false :=
  fun c hc => isBlank_of_isSized (isSized_of_isWord (hw.2 c hc))

theorem words_of_isIdentifier (hw : IsIdentifier w) : words w = [w] :=
  words_of_forall hw.1 (isBlank_of_isIdentifier hw)

/-! ## Texts without brackets -/

/-- The character is no blank, no bracket, no comma and no semicolon. -/
def isBare (c : Char) : Bool := !isBlank c && !"()[]\x7b\x7d,;".toList.contains c

/-- No blanks, brackets, commas and semicolons. -/
def Bare (t : Text) : Prop := ∀ c ∈ t, isBare c = true

instance (t : Text) : Decidable (Bare t) := List.decidableBAll (isBare · = true) t

theorem isBlank_of_isBare {c : Char} (h : isBare c = true) : isBlank c = false := by
  unfold isBare at h
  simp_all

theorem Bare.not_mem {c : Char} (h : Bare t) (hc : isBare c = false) : c ∉ t := by
  intro hmem
  rw [h c hmem] at hc
  cases hc

/-- Cutting at commas and semicolons leaves the text as it is. -/
def Uncut (t : Text) : Prop := ∀ c ∈ t, nesting c = 0 ∧ c ≠ ',' ∧ c ≠ ';'

theorem Uncut.append {u : Text} (ht : Uncut t) (hu : Uncut u) : Uncut (t ++ u) :=
  List.forall_mem_append.2 ⟨ht, hu⟩

theorem uncut_of_isWordOrBlank (h : ∀ c ∈ t, isWordOrBlank c = true) : Uncut t := by
  intro c hc
  refine ⟨nesting_of_isWordOrBlank (h c hc), ?_, ?_⟩
  · rintro rfl
    exact absurd (h _ hc) (by decide)
  · rintro rfl
    exact absurd (h _ hc) (by decide)

theorem uncut_of_allBlank (h : t.AllBlank) : Uncut t :=
  uncut_of_isWordOrBlank fun c hc => isWordOrBlank_of_isBlank (h c hc)

theorem uncut_of_isIdentifier (h : IsIdentifier t) : Uncut t :=
  uncut_of_isWordOrBlank fun c hc => isWordOrBlank_of_isSized (isSized_of_isWord (h.2 c hc))

theorem Bare.uncut (h : Bare t) : Uncut t := by
  intro c hc
  have hne : ∀ {d}, isBare d = false → c ≠ d := by
    rintro d hd rfl
    exact h.not_mem hd hc
  have hopen : ¬ (c = '(' ∨ c = '\x7b') := not_or.2 ⟨hne (by decide), hne (by decide)⟩
  have hclose : ¬ (c = ')' ∨ c = '\x7d') := not_or.2 ⟨hne (by decide), hne (by decide)⟩
  refine ⟨?_, hne (by decide), hne (by decide)⟩
  rw [nesting, if_neg hopen, if_neg hclose]

theorem Uncut.isPiece (h : Uncut t) : IsPiece t :=
  isPiece_of_forall (fun c hc => (h c hc).1) fun hmem => (h _ hmem).2.1 rfl

theorem Uncut.semicolon_not_mem (h : Uncut t) : ';' ∉ t := fun hmem => (h _ hmem).2.2 rfl

end Text

/-! ## Declarations as they are written -/

/-- A name with the array size behind it, if there is one, and with blanks around both. -/
structure Declarator where
  before : Text
  name : Text
  size : Option Text
  after : Text
  isBlank_before : before.AllBlank
  isIdentifier : IsIdentifier name
  bare_size : ∀ s ∈ size, Bare s
  isBlank_after : after.AllBlank

/-- A word that may stand in front of a type, with the gap behind it. -/
def IsQualifier (q : Text × Text) : Prop := q.1 ≠ [] ∧ Bare q.1 ∧ IsGap q.2

instance (q : Text × Text) : Decidable (IsQualifier q) := inferInstanceAs (Decidable (_ ∧ _ ∧ _))

/-- A declaration of fields: qualifiers, each with the gap behind it, the type, and declarators with
commas between them. -/
structure FieldsText where
  lead : Text
  qualifiers : List (Text × Text)
  type : Text
  gap : Text
  declarators : List Declarator
  isBlank_lead : lead.AllBlank
  isQualifier : ∀ q ∈ qualifiers, IsQualifier q
  isIdentifier : IsIdentifier type
  isGap : IsGap gap
  declarators_ne_nil : declarators ≠ []

/-- The body of a struct: declarations with semicolons between them; behind one more semicolon there
may be blanks. -/
structure BodyText where
  fields : List FieldsText
  ending : Option Text
  isBlank_ending : ∀ b ∈ ending, b.AllBlank

namespace Declarator

/-- The array size with its brackets. -/
def sizeText (x : Declarator) : Text :=
  match x.size with
  | none => []
  | some s => '[' :: (s ++ [']'])

/-- The name and the array size. -/
def core (x : Declarator) : Text := x.name ++ x.sizeText

def text (x : Declarator) : Text := x.before ++ (x.core ++ x.after)

end Declarator

namespace FieldsText

/-- What stands in front of the declarators. -/
def front (x : FieldsText) : Text := x.lead ++ (spaced x.qualifiers ++ (x.type ++ x.gap))

def text (x : FieldsText) : Text := x.front ++ join [','] (x.declarators.map (·.text))

/-- The type and the name of each field. -/
def typedNames (x : FieldsText) : List (Text × Text) := x.declarators.map fun d => (x.type, d.name)

/-- Each declarator in a declaration of its own. -/
def apart (x : FieldsText) : List FieldsText :=
  x.declarators.map fun d =>
    { x with
      declarators := [d]
      declarators_ne_nil := List.cons_ne_nil d [] }

end FieldsText

namespace BodyText

def text (x : BodyText) : Text := join [';'] (x.fields.map (·.text) ++ x.ending.toList)

/-- The type and the name of each field. -/
def typedNames (x : BodyText) : List (Text × Text) := x.fields.flatMap (·.typedNames)

/-- Each declarator in a declaration of its own. -/
def apart (x : BodyText) : BodyText := { x with fields := x.fields.flatMap (·.apart) }

end BodyText

/-- Types and names in order, with their numbers. -/
def numbered (xs : List (Text × Text)) : List Parameter := xs.mapIdx fun i x => ⟨x.2, x.1, i⟩

/-! ## Reading a declaration with one declarator -/

section Single

variable {qs : List (Text × Text)} {type gap y z : Text}

/-- In front of array sizes texts are the same but for blanks. -/
theorem exists_blank_of_sizes {u v s r e : Text} (hu : '[' ∉ u) (hv : '[' ∉ v) (hs : IsSize s)
    (hr : IsSize r) (he : e.AllBlank) (h : u ++ s = v ++ (r ++ e)) :
    ∃ b : Text, b.AllBlank ∧ u = v ++ b := by
  rcases hs with rfl | ⟨q, -, rfl⟩
  · rw [List.append_nil] at h
    rcases hr with rfl | ⟨q', -, rfl⟩
    · exact ⟨e, he, h⟩
    · exact absurd (by simp [h]) hu
  · rcases hr with rfl | ⟨q', -, rfl⟩
    · have hmem : '[' ∈ v ++ ([] ++ e) := h ▸ List.mem_append_right u List.mem_cons_self
      rcases List.mem_append.1 hmem with hmem | hmem
      · exact absurd hmem hv
      · exact absurd hmem (AllBlank.not_mem he (by decide))
    · obtain ⟨rfl, -⟩ := first_unique hu hv h
      exact ⟨[], List.forall_mem_nil _, (List.append_nil u).symm⟩

theorem Declarator.isSize (d : Declarator) : IsSize d.sizeText := by
  unfold sizeText
  cases hsize : d.size with
  | none => exact Or.inl rfl
  | some s => exact Or.inr ⟨s, (d.bare_size s hsize).not_mem (by decide), rfl⟩

/-- A declaration with one declarator, without the blanks around it. -/
def single (qs : List (Text × Text)) (type gap : Text) (d : Declarator) : Text :=
  spaced qs ++ (type ++ (gap ++ d.core))

theorem Declarator.isBlank_core (d : Declarator) : ∀ c ∈ d.core, isBlank c = false := by
  have hsize : ∀ c ∈ d.sizeText, isBlank c = false := by
    unfold sizeText
    cases hs : d.size with
    | none => exact List.forall_mem_nil _
    | some s =>
      have hbare : ∀ c ∈ s, isBlank c = false := fun c hc =>
        isBlank_of_isBare (d.bare_size s hs c hc)
      have hclose : ∀ c ∈ [']'], isBlank c = false := List.forall_mem_singleton.2 (by decide)
      exact List.forall_mem_cons.2 ⟨by decide, List.forall_mem_append.2 ⟨hbare, hclose⟩⟩
  exact List.forall_mem_append.2 ⟨isBlank_of_isIdentifier d.isIdentifier, hsize⟩

theorem Declarator.core_ne_nil (d : Declarator) : d.core ≠ [] := by
  simp [core, d.isIdentifier.1]

theorem IsGap.append {b : Text} (hgap : IsGap gap) (hb : b.AllBlank) : IsGap (gap ++ b) :=
  ⟨by simp [hgap.1], List.forall_mem_append.2 ⟨hgap.2, hb⟩⟩

theorem opensWord_gap_append (hgap : IsGap gap) (t : Text) : opensWord (gap ++ t) = false := by
  obtain ⟨c, g, rfl⟩ := List.exists_cons_of_ne_nil hgap.1
  exact isWord_of_isBlank (hgap.2 c List.mem_cons_self)

theorem isBlank_head_identifier {w : Text} (hw : IsIdentifier w) (t : Text) :
    ∀ c ∈ (w ++ t).head?, isBlank c = false := by
  obtain ⟨d, w, rfl⟩ := List.exists_cons_of_ne_nil hw.1
  rintro _ ⟨⟩
  exact isBlank_of_isIdentifier hw d List.mem_cons_self

/-- Behind the name comes a bracket, or nothing. -/
theorem Declarator.head_sizeText (d : Declarator) : ∀ c ∈ (d.sizeText ++ []).head?, c = '[' := by
  unfold sizeText
  cases d.size with
  | none => exact nofun
  | some s =>
    rintro _ ⟨⟩
    rfl

theorem Declarator.takes_sizeText (d : Declarator) {b : Option Char} {gs : List (Nat × Span)} :
    (optional (lit '[' ++ many (noneOf "]") ++ lit ']')).Takes b gs d.sizeText [] gs := by
  unfold sizeText
  cases hsize : d.size with
  | none =>
    refine takes_optional_nil fun k hk => ?_
    show (lit '[').run k (fun k₁ =>
      (many (noneOf "]")).run k₁ fun k₂ => (lit ']').run k₂ some) = none
    exact run_lit_of_ne (by simp [hk])
  | some s =>
    have hs : ']' ∉ s := (d.bare_size s hsize).not_mem (by decide)
    exact (takes_lit.seq (takes_chars (noneOf_of_not_mem rfl hs) (by rintro _ ⟨⟩; decide))
      |>.seq takes_lit).optional

theorem here_declarator (htype : IsIdentifier type) (hgap : IsGap gap) (d : Declarator)
    (b : Option Char) (start : Nat) :
    Parameter.declarator.here b start (type ++ (gap ++ d.core)).length (type ++ (gap ++ d.core)) =
      some ⟨start, type ++ (gap ++ d.core), [some type, some d.name]⟩ := by
  have hword : opensWord (d.sizeText ++ []) = false := by
    cases hs : d.sizeText ++ [] with
    | nil => rfl
    | cons c t =>
      obtain rfl := d.head_sizeText c (by rw [hs]; rfl)
      show isWord '[' = false
      decide
  have htakes : Parameter.declarator.Takes b [] (type ++ gap ++ d.name ++ d.sizeText) [] _ :=
    (takes_identifier htype (opensWord_gap_append hgap _)).group 1
      |>.seq (takes_many1 hgap.1 hgap.2 (isBlank_head_identifier d.isIdentifier _))
      |>.seq ((takes_identifier d.isIdentifier hword).group 2)
      |>.seq_nil (takes_chars (List.forall_mem_nil _) fun c hc => d.head_sizeText c hc ▸ by decide)
      |>.seq d.takes_sizeText
      |>.seq_nil (takes_chars (List.forall_mem_nil _) nofun)
      |>.seq_nil takes_textEnd
  have ht : type ++ (gap ++ d.core) = type ++ gap ++ d.name ++ d.sizeText := by
    simp [Declarator.core]
  have hhere := htakes.here (n := 2) ht rfl rfl start
  rw [List.append_nil] at hhere
  rw [hhere]
  simp [firstTexts, List.range_succ, List.lookup_cons, Span.text]

variable (hqs : ∀ q ∈ qs, IsQualifier q)
include hqs

theorem words_spaced (t : Text) : words (spaced qs ++ t) = qs.map Prod.fst ++ words t := by
  induction qs with
  | nil => rfl
  | cons q qs ih =>
    obtain ⟨⟨hne, hword, hgap⟩, hqs⟩ := List.forall_mem_cons.1 hqs
    have hone := words_of_forall hne fun c hc => isBlank_of_isBare (hword c hc)
    rw [spaced_cons, List.append_assoc, List.append_assoc, words_append hgap, hone, ih hqs]
    rfl

theorem bracket_not_mem_spaced : '[' ∉ spaced qs := by
  intro hmem
  obtain ⟨q, hq, hmem⟩ := List.mem_flatMap.1 hmem
  obtain ⟨-, hword, hgap⟩ := hqs q hq
  rcases List.mem_append.1 hmem with hmem | hmem
  · exact hword.not_mem (by decide) hmem
  · exact AllBlank.not_mem hgap.2 (by decide) hmem

/-- A part at the end of the qualifiers begins with blanks, or with a word. -/
theorem exists_of_spaced_eq_append (h : spaced qs = y ++ z) (hz : z ≠ []) :
    ∃ w g post, z = w ++ (g ++ spaced post) ∧ (∀ c ∈ w, isBlank c = false) ∧ IsGap g ∧
      ∀ q ∈ post, IsQualifier q := by
  induction qs generalizing y with
  | nil => exact absurd (List.append_eq_nil_iff.1 h.symm).2 hz
  | cons q qs ih =>
    obtain ⟨⟨-, hword, hgap⟩, hqs⟩ := List.forall_mem_cons.1 hqs
    rw [spaced_cons] at h
    rcases List.append_eq_append_iff.1 h with ⟨a, rfl, ha⟩ | ⟨a, ha, rfl⟩
    · rcases List.append_eq_append_iff.1 ha with ⟨b, rfl, hb⟩ | ⟨b, hb, rfl⟩
      · exact ih hqs hb
      · cases b with
        | nil => exact ih hqs (y := []) rfl
        | cons c b =>
          have hblank : AllBlank (c :: b) := fun d hd =>
            hgap.2 d (hb ▸ List.mem_append_right a hd)
          exact ⟨[], c :: b, qs, rfl, List.forall_mem_nil _, ⟨List.cons_ne_nil c b, hblank⟩, hqs⟩
    · refine ⟨a, q.2, qs, rfl, fun c hc => isBlank_of_isBare (hword c ?_), hgap, hqs⟩
      exact ha ▸ List.mem_append_right y hc

/-- The type and the name are not found in front of the type: there are too many words. -/
theorem not_declares (htype : IsIdentifier type) (hgap : IsGap gap) (d : Declarator)
    (h : spaced qs = y ++ z) (hz : z ≠ []) (x : WrittenType) :
    ¬ x.Declares (z ++ (type ++ (gap ++ d.core))) := by
  rintro ⟨g', n, e, e', hbase, hg', hn, he, hsize, he', heq⟩
  have hword : ∀ {w : Text}, IsIdentifier w → '[' ∉ w := fun hw hmem =>
    absurd (hw.2 _ hmem) (by decide)
  have hblank : ∀ {b : Text}, b.AllBlank → '[' ∉ b := fun hb => AllBlank.not_mem hb (by decide)
  have hfront : '[' ∉ z ++ (type ++ (gap ++ d.name)) := by
    have hz : '[' ∉ z := fun hmem => bracket_not_mem_spaced hqs (h ▸ List.mem_append_right y hmem)
    simp [hz, hword htype, hword d.isIdentifier, hblank hgap.2]
  have hback : '[' ∉ x.base ++ (g' ++ (n ++ e)) := by
    simp [hword hbase, hword hn, hblank hg'.2, hblank he]
  have hcut : (z ++ (type ++ (gap ++ d.name))) ++ d.sizeText =
      (x.base ++ (g' ++ (n ++ e))) ++ (x.size ++ e') := by
    simpa [Declarator.core] using heq
  obtain ⟨b, hb, heq⟩ := exists_blank_of_sizes hfront hback d.isSize hsize he' hcut
  obtain ⟨w, g, post, rfl, hw, hg, hpost⟩ := exists_of_spaced_eq_append hqs h hz
  have hne : w ≠ [] := by
    rintro rfl
    obtain ⟨c, g, rfl⟩ := List.exists_cons_of_ne_nil hg.1
    obtain ⟨c', r, hr⟩ := List.exists_cons_of_ne_nil hbase.1
    rw [hr] at heq
    obtain rfl : c = c' := (List.cons.inj heq).1
    exact absurd (isBlank_of_isIdentifier hbase c (hr ▸ List.mem_cons_self)) (by simp [hg.2 c])
  have hleft : words (w ++ (g ++ spaced post) ++ (type ++ (gap ++ d.name))) =
      w :: (post.map Prod.fst ++ [type, d.name]) := by
    rw [List.append_assoc, List.append_assoc, words_append hg, words_of_forall hne hw,
      words_spaced hpost, words_append hgap, words_of_isIdentifier htype,
      words_of_isIdentifier d.isIdentifier]
    rfl
  have hright : words (x.base ++ (g' ++ (n ++ e)) ++ b) = [x.base, n] := by
    rw [words_append_blank hb, words_append hg', words_append_blank he,
      words_of_isIdentifier hbase, words_of_isIdentifier hn]
    rfl
  have hlength := congrArg List.length (hleft.symm.trans ((congrArg words heq).trans hright))
  simp at hlength

theorem search_single (htype : IsIdentifier type) (hgap : IsGap gap) (d : Declarator) :
    ∃ m, Parameter.declarator.search (single qs type gap d) = some m ∧ m.group 1 = type ∧
      m.group 2 = d.name := by
  have hnone : ∀ y z, spaced qs = y ++ z → z ≠ [] →
      Parameter.declarator.here (y.getLast?.or none) (0 + y.length)
        (z ++ (type ++ (gap ++ d.core))).length (z ++ (type ++ (gap ++ d.core))) = none := by
    intro y z h hz
    rw [← Option.not_isSome_iff_eq_none, isSome_here_declarator]
    rintro ⟨x, hx⟩
    exact not_declares hqs htype hgap d h hz x hx
  have hhere := searchFrom_of_here (here_declarator htype hgap d ((spaced qs).getLast?.or none)
    (0 + (spaced qs).length))
  exact ⟨_, (searchFrom_append hnone).trans hhere, rfl, rfl⟩

theorem trim_single (htype : IsIdentifier type) (gap : Text) (d : Declarator) :
    (single qs type gap d).trim = single qs type gap d := by
  refine trim_eq_self ?_ ?_
  · cases qs with
    | nil => exact isBlank_head_identifier htype _
    | cons q qs =>
      obtain ⟨hne, hword, -⟩ := hqs q List.mem_cons_self
      obtain ⟨c, w, hw⟩ := List.exists_cons_of_ne_nil hne
      intro d hd
      rw [single, spaced_cons, hw] at hd
      cases hd
      exact isBlank_of_isBare (hword _ (hw ▸ List.mem_cons_self))
  · have hsingle : single qs type gap d = spaced qs ++ (type ++ gap) ++ d.core := by simp [single]
    rw [hsingle]
    exact forall_mem_getLast?_append d.core_ne_nil d.isBlank_core _

/-- Type and name are read, whatever stands around them. -/
theorem ofText_single (htype : IsIdentifier type) (hgap : IsGap gap) (d : Declarator)
    (index : Nat) : Parameter.ofText index (single qs type gap d) = .ok ⟨d.name, type, index⟩ := by
  obtain ⟨m, hm, hone, htwo⟩ := search_single hqs htype hgap d
  unfold Parameter.ofText
  rw [trim_single hqs htype, hm]
  simp only [hone, htwo]

theorem words_single (htype : IsIdentifier type) (hgap : IsGap gap) (d : Declarator) :
    words (single qs type gap d) = qs.map Prod.fst ++ [type, d.core] := by
  rw [single, words_spaced hqs, words_append hgap, words_of_isIdentifier htype,
    words_of_forall d.core_ne_nil d.isBlank_core]
  rfl

end Single

/-! ## Separating declarators -/

theorem trim_ne_nil {t : Text} {c : Char} (hmem : c ∈ t) (hc : isBlank c = false) :
    t.trim ≠ [] := by
  intro hnil
  obtain ⟨b, b', hb, hb', ht⟩ := exists_trim_eq t
  rw [hnil, List.nil_append] at ht
  have hblank : isBlank c = true := List.forall_mem_append.2 ⟨hb, hb'⟩ c (ht ▸ hmem)
  rw [hc] at hblank
  cases hblank

namespace Declarator

variable (d : Declarator)

theorem trim_text : d.text.trim = d.core := by
  have htrim : d.core.trim = d.core := trim_eq_self (isBlank_head_identifier d.isIdentifier _)
    fun c hc => d.isBlank_core c (List.mem_of_getLast? hc)
  rw [text, trim_append_left d.isBlank_before, trim_append_right d.isBlank_after, htrim]

theorem uncut_text : Uncut d.text := by
  have hsize : Uncut d.sizeText := by
    unfold sizeText
    cases hs : d.size with
    | none => exact List.forall_mem_nil _
    | some s =>
      have hclose : Uncut [']'] := List.forall_mem_singleton.2 (by decide)
      exact List.forall_mem_cons.2 ⟨by decide, (d.bare_size s hs).uncut.append hclose⟩
  have hcore : Uncut d.core := (uncut_of_isIdentifier d.isIdentifier).append hsize
  exact (uncut_of_allBlank d.isBlank_before).append
    (hcore.append (uncut_of_allBlank d.isBlank_after))

end Declarator

/-- A field of the type and the name is read from the text. -/
def ReadsAs (t : Text) (x : Text × Text) : Prop :=
  ∀ index, Parameter.ofText index t = .ok ⟨x.2, x.1, index⟩

namespace FieldsText

variable (x : FieldsText)

theorem uncut_front : Uncut x.front := by
  have hspaced : Uncut (spaced x.qualifiers) := by
    intro c hc
    obtain ⟨q, hq, hc⟩ := List.mem_flatMap.1 hc
    obtain ⟨-, hword, hgap⟩ := x.isQualifier q hq
    exact (hword.uncut.append (uncut_of_allBlank hgap.2)) c hc
  exact (uncut_of_allBlank x.isBlank_lead).append
    (hspaced.append ((uncut_of_isIdentifier x.isIdentifier).append (uncut_of_allBlank x.isGap.2)))

theorem semicolon_not_mem : ';' ∉ x.text := by
  have hdeclarators : ∀ c ∈ join [','] (x.declarators.map (·.text)), c ≠ ';' := by
    refine forall_mem_join (List.forall_mem_singleton.2 (by decide)) fun t ht c hc => ?_
    obtain ⟨d, -, rfl⟩ := List.mem_map.1 ht
    exact (d.uncut_text c hc).2.2
  intro hmem
  rcases List.mem_append.1 hmem with hmem | hmem
  · exact x.uncut_front.semicolon_not_mem hmem
  · exact hdeclarators _ hmem rfl

theorem trim_text_ne_nil : x.text.trim ≠ [] := by
  obtain ⟨c, w, hw⟩ := List.exists_cons_of_ne_nil x.isIdentifier.1
  have hc : c ∈ x.type := hw ▸ List.mem_cons_self
  refine trim_ne_nil ?_ (isBlank_of_isIdentifier x.isIdentifier c hc)
  simp [text, front, hc]

/-- The declarations that are read, each with one declarator. -/
def singles : List Text :=
  match x.declarators with
  | [] => []
  | d :: ds => single x.qualifiers x.type (x.gap ++ d.before) d :: ds.map (single [] x.type [' '])

/-- The type in front of the first declarator is written in front of the others. -/
theorem separate_trim_text : Parameter.separate x.text.trim = .ok x.singles := by
  obtain ⟨d, ds, hds⟩ := List.exists_cons_of_ne_nil x.declarators_ne_nil
  have htext : x.text = join [','] ((x.front ++ d.text) :: ds.map (·.text)) := by
    rw [text, hds, List.map_cons, join_cons, join_cons, List.append_assoc]
  have hgap : IsGap (x.gap ++ d.before) := x.isGap.append d.isBlank_before
  have hfirst : (x.front ++ d.text).trim = single x.qualifiers x.type (x.gap ++ d.before) d := by
    have hall : x.front ++ d.text =
        x.lead ++ (single x.qualifiers x.type (x.gap ++ d.before) d ++ d.after) := by
      simp [front, Declarator.text, single]
    rw [hall, trim_append_left x.isBlank_lead, trim_append_right d.isBlank_after,
      trim_single x.isQualifier x.isIdentifier]
  have hpieces : ∀ t ∈ (x.front ++ d.text) :: ds.map (·.text), IsPiece t ∧ t.trim ≠ [] := by
    refine List.forall_mem_cons.2 ⟨⟨(x.uncut_front.append d.uncut_text).isPiece, ?_⟩,
      List.forall_mem_map.2 fun e _ => ⟨e.uncut_text.isPiece, ?_⟩⟩
    · rw [hfirst]
      simp [single, x.isIdentifier.1]
    · rw [e.trim_text]
      exact e.core_ne_nil
  have hsplit : splitCommas x.text.trim =
      .ok (single x.qualifiers x.type (x.gap ++ d.before) d :: ds.map (·.core)) := by
    rw [htext, splitCommas_trim_join (List.cons_ne_nil _ _) (fun t ht => (hpieces t ht).1)
      fun t ht => (hpieces t ht).2, List.map_cons, hfirst, List.map_map]
    simp only [Function.comp_def, Declarator.trim_text]
  have hwords : (single x.qualifiers x.type (x.gap ++ d.before) d).words.reverse =
      d.core :: x.type :: (x.qualifiers.map Prod.fst).reverse := by
    rw [words_single x.isQualifier x.isIdentifier hgap]
    simp
  unfold Parameter.separate singles
  rw [hsplit, hds]
  cases ds with
  | nil => rfl
  | cons e es =>
    simp only [List.map_cons, bind, Except.bind, hwords, List.map_map]
    rfl

theorem reads_singles : List.Forall₂ ReadsAs x.singles x.typedNames := by
  obtain ⟨d, ds, hds⟩ := List.exists_cons_of_ne_nil x.declarators_ne_nil
  have hgap : IsGap (x.gap ++ d.before) := x.isGap.append d.isBlank_before
  have hspace : IsGap [' '] := ⟨List.cons_ne_nil _ _, List.forall_mem_singleton.2 isBlank_space⟩
  unfold singles typedNames
  rw [hds]
  refine .cons (ofText_single x.isQualifier x.isIdentifier hgap d) ?_
  rw [List.forall₂_map_left_iff, List.forall₂_map_right_iff, List.forall₂_same]
  exact fun e _ => ofText_single (List.forall_mem_nil _) x.isIdentifier hspace e

end FieldsText

theorem Parameter.ofTextsFrom_of_reads {ts : List Text} {xs : List (Text × Text)}
    (h : List.Forall₂ ReadsAs ts xs) (index : Nat) :
    Parameter.ofTextsFrom index ts = .ok (xs.mapIdx fun i x => ⟨x.2, x.1, index + i⟩) := by
  induction h generalizing index with
  | nil => rfl
  | cons hx _ ih =>
    rw [ofTextsFrom, hx index, ih (index + 1), List.mapIdx_cons]
    simp only [Nat.add_zero, Nat.add_assoc, Nat.add_comm 1]
    rfl

/-! ## Bodies -/

theorem filter_split_join {ts : List Text} (h : ∀ t ∈ ts, ';' ∉ t) :
    ((split ';' (join [';'] ts)).map trim).filter (!·.isEmpty) =
      (ts.map trim).filter (!·.isEmpty) := by
  cases ts with
  | nil => rfl
  | cons t ts => rw [split_join (List.cons_ne_nil t ts) h]

namespace BodyText

variable (x : BodyText)

theorem fieldTexts_text : Parameter.fieldTexts x.text = .ok (x.fields.flatMap (·.singles)) := by
  have hsemicolon : ∀ t ∈ x.fields.map (·.text) ++ x.ending.toList, ';' ∉ t := by
    refine List.forall_mem_append.2 ⟨List.forall_mem_map.2 fun f _ => f.semicolon_not_mem, ?_⟩
    exact fun b hb => AllBlank.not_mem (x.isBlank_ending b (Option.mem_toList.1 hb)) (by decide)
  have hfull : ∀ t ∈ x.fields.map (·.text.trim), (!t.isEmpty) = true :=
    List.forall_mem_map.2 fun f _ => by simpa using f.trim_text_ne_nil
  have hending : (x.ending.toList.map trim).filter (!·.isEmpty) = [] := by
    refine List.filter_eq_nil_iff.2 (List.forall_mem_map.2 fun b hb => ?_)
    have hblank := trim_append_left (x.isBlank_ending b (Option.mem_toList.1 hb)) []
    rw [List.append_nil] at hblank
    rw [hblank]
    exact Bool.false_ne_true
  have hfields : ((split ';' x.text).map trim).filter (!·.isEmpty) =
      x.fields.map (·.text.trim) := by
    rw [text, filter_split_join hsemicolon, List.map_append, List.filter_append, hending,
      List.append_nil, List.map_map]
    exact List.filter_eq_self.2 hfull
  have hseparate : (x.fields.map (·.text.trim)).mapM Parameter.separate =
      .ok (x.fields.map (·.singles)) := by
    rw [List.mapM_map]
    exact Precedence.mapM_eq_ok fun f _ => f.separate_trim_text
  unfold Parameter.fieldTexts
  simp only
  rw [hfields, hseparate]
  exact congrArg Except.ok (List.flatMap_def ..).symm

theorem reads_singles :
    List.Forall₂ ReadsAs (x.fields.flatMap (·.singles)) x.typedNames := by
  unfold typedNames
  induction x.fields with
  | nil => exact .nil
  | cons f fs ih =>
    rw [List.flatMap_cons, List.flatMap_cons]
    exact List.rel_append f.reads_singles ih

theorem ofFields_text : Parameter.ofFields x.text = .ok (numbered x.typedNames) := by
  unfold Parameter.ofFields
  rw [x.fieldTexts_text]
  refine (Parameter.ofTextsFrom_of_reads x.reads_singles 0).trans ?_
  simp only [Nat.zero_add]
  rfl

theorem typedNames_apart : x.apart.typedNames = x.typedNames := by
  have hfield : ∀ f : FieldsText, f.apart.flatMap (·.typedNames) = f.typedNames := by
    intro f
    rw [FieldsText.apart, List.flatMap_map]
    exact List.map_eq_flatMap.symm
  rw [typedNames, apart, List.flatMap_assoc]
  exact List.flatMap_congr fun f _ => hfield f

end BodyText

/-- Each declarator of a struct is read as a field of its own, with the type of its declaration, as
if it were declared alone. -/
theorem Parameter.ofFields_apart (x : BodyText) :
    Parameter.ofFields x.text = .ok (numbered x.typedNames) ∧
      Parameter.ofFields x.apart.text = Parameter.ofFields x.text := by
  refine ⟨x.ofFields_text, ?_⟩
  rw [x.ofFields_text, x.apart.ofFields_text, x.typedNames_apart]

/-- Two declarations, the second one with qualifiers and three declarators. -/
def sampleBody : BodyText where
  fields := [{
    lead := ['\n']
    qualifiers := []
    type := "vec3".toList
    gap := "  ".toList
    declarators := [⟨[], "color".toList, none, [], by decide, by decide, nofun, by decide⟩]
    isBlank_lead := by decide
    isQualifier := nofun
    isIdentifier := by decide
    isGap := by decide
    declarators_ne_nil := List.cons_ne_nil _ _ }, {
    lead := ['\n']
    qualifiers := [("const".toList, ['\t']), ("highp".toList, [' '])]
    type := "int".toList
    gap := [' ']
    declarators := [
      ⟨[], "count".toList, none, ['\t'], by decide, by decide, nofun, by decide⟩,
      ⟨['\t'], "sizes".toList, some "2".toList, [], by decide, by decide, by decide, by decide⟩,
      ⟨['\n'], "rest".toList, some "N+1".toList, ['\t'], by decide, by decide, by decide, by decide⟩]
    isBlank_lead := by decide
    isQualifier := by decide
    isIdentifier := by decide
    isGap := by decide
    declarators_ne_nil := List.cons_ne_nil _ _ }]
  ending := some "\n".toList
  isBlank_ending := by decide

theorem Parameter.ofFields_apart_sample :
    sampleBody.text = "\nvec3  color;\nconst\thighp int count\t,\tsizes[2],\nrest[N+1]\t;\n".toList ∧
    sampleBody.apart.text = ("\nvec3  color;\nconst\thighp int count\t;\nconst\thighp int \tsizes[2];" ++
      "\nconst\thighp int \nrest[N+1]\t;\n").toList ∧
    Parameter.ofFields sampleBody.text = .ok
      [⟨"color".toList, "vec3".toList, 0⟩, ⟨"count".toList, "int".toList, 1⟩,
        ⟨"sizes".toList, "int".toList, 2⟩, ⟨"rest".toList, "int".toList, 3⟩] ∧
    Parameter.ofFields sampleBody.apart.text = Parameter.ofFields sampleBody.text := by
  obtain ⟨hfields, hapart⟩ := Parameter.ofFields_apart sampleBody
  exact ⟨by decide, by decide, hfields, hapart⟩

end ShaderLink
