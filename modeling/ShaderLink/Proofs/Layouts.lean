import ShaderLink.Declaration
import ShaderLink.Proofs.Runs

/-!
# How uniforms and global variables are laid out

A uniform or a global variable is keywords, a type, a name and perhaps a value (`Layout`).  A text
has one layout at most, as far as type, name and value go, and so has every text that begins with
it (`Layout.unique`).  There are no blanks around a layout (`Layout.trim_text`).
-/

namespace ShaderLink

/-! ## Characters -/

namespace Text

/-- The numbers in a table of ranges. -/
def members : List Nat → List Nat
  | b :: e :: bs => List.range' b (e - b) ++ members bs
  | _ => []

theorem mem_members {n : Nat} {bounds : List Nat} (heven : bounds.length % 2 = 0)
    (h : flips n false bounds = true) : n ∈ members bounds := by
  induction bounds using members.induct with
  | case1 b e bs ih =>
    have hlt : ¬ n < b := fun hlt => by simp [flips, hlt] at h
    by_cases hn : n < e
    · refine List.mem_append_left _ (List.mem_range'_1.2 ?_)
      omega
    · refine List.mem_append_right _ (ih ?_ (by simpa [flips, hlt, hn] using h))
      simp only [List.length_cons] at heven
      omega
  | case2 bounds hshort =>
    rcases bounds with _ | ⟨b, _ | ⟨e, bs⟩⟩
    · cases h
    · cases heven
    · exact absurd rfl (hshort b e bs)

/-- Nothing but blanks. -/
def AllBlank (t : Text) : Prop := ∀ c ∈ t, isBlank c = true

instance (t : Text) : Decidable t.AllBlank := List.decidableBAll (isBlank · = true) t

/-- The first text with blanks around it is the second. -/
def Padded (t t' : Text) : Prop := ∃ b b', AllBlank b ∧ AllBlank b' ∧ t' = b ++ t ++ b'

/-- A blank is no part of a word. -/
theorem isWord_of_isBlank {c : Char} (h : isBlank c = true) : isWord c = false := by
  have hbasic : ∀ n < 128, isBlank (Char.ofNat n) = true → isWord (Char.ofNat n) = false := by
    decide +kernel
  have hothers : ∀ n ∈ members blankBounds, isWord (Char.ofNat n) = false := by
    decide +kernel
  rw [← Char.ofNat_toNat c] at h ⊢
  by_cases hc : c.toNat < 128
  · exact hbasic _ hc h
  · refine hothers _ (mem_members rfl ?_)
    rw [Char.ofNat_toNat] at h
    unfold isBlank at h
    rwa [if_neg hc] at h

end Text

theorem Text.Padded.semicolon_not_mem {t t' : Text} (h : t.Padded t') (ht : ';' ∉ t) :
    ';' ∉ t' := by
  have hblank : ∀ {b : Text}, b.AllBlank → ';' ∉ b := fun hb hmem => absurd (hb _ hmem) (by decide)
  obtain ⟨b, b', hb, hb', rfl⟩ := h
  simp only [List.mem_append, not_or]
  exact ⟨⟨hblank hb, ht⟩, hblank hb'⟩

/-- A word character or an array bracket. -/
def isSized (c : Char) : Bool := Text.isWord c || c == '[' || c == ']'

theorem isSized_of_isWord {c : Char} (h : Text.isWord c = true) : isSized c = true := by
  unfold isSized
  rw [h]
  rfl

theorem isSized_of_isBlank {c : Char} (h : Text.isBlank c = true) : isSized c = false := by
  have hopen : c ≠ '[' := fun hc => absurd (hc ▸ h) (by decide)
  have hclose : c ≠ ']' := fun hc => absurd (hc ▸ h) (by decide)
  simp [isSized, Text.isWord_of_isBlank h, hopen, hclose]

theorem isBlank_of_isSized {c : Char} (h : isSized c = true) : Text.isBlank c = false := by
  by_contra hblank
  rw [Bool.not_eq_false] at hblank
  rw [isSized_of_isBlank hblank] at h
  cases h

/-! ## Layouts -/

/-- A word, perhaps with an array size behind it. -/
structure SizedWord where
  word : Text
  size : Text
  isIdentifier : Text.IsIdentifier word
  isSized_size : ∀ c ∈ size, isSized c = true
  opensWord_size : Text.opensWord size = false

/-- At least one blank, and nothing else. -/
def IsGap (g : Text) : Prop := g ≠ [] ∧ g.AllBlank

instance (g : Text) : Decidable (IsGap g) := inferInstanceAs (Decidable (_ ∧ _))

/-- The parts of a uniform or a global variable: keywords, each with the gap behind it, the type,
the name, and what stands between the equals sign and the semicolon, if there is one. -/
structure Layout where
  keywords : List (Text × Text)
  type : SizedWord
  gap : Text
  name : SizedWord
  space : Text
  value : Option Text
  isKeyword : ∀ k ∈ keywords, Text.IsIdentifier k.1 ∧ IsGap k.2
  isGap : IsGap gap
  isBlank_space : space.AllBlank
  semicolon_not_mem : ∀ v, value = some v → ';' ∉ v

/-- The keywords that may stand in front, in order. -/
def Kind.openings : Kind → List (List Text)
  | .global => [[], ["const".toList]]
  | .uniform => [["uniform".toList], ["uniform".toList, "lowp".toList],
      ["uniform".toList, "mediump".toList], ["uniform".toList, "highp".toList]]
  | .function | .struct | .define => []

def SizedWord.text (w : SizedWord) : Text := w.word ++ w.size

namespace Layout

/-- The keywords with the gaps behind them. -/
def head (x : Layout) : Text := x.keywords.flatMap fun k => k.1 ++ k.2

/-- What stands behind the name and the blanks there. -/
def ending : Option Text → Text
  | none => [';']
  | some v => '=' :: v ++ [';']

/-- All that stands in front of the equals sign or the semicolon. -/
def front (x : Layout) : Text := x.head ++ x.type.text ++ x.gap ++ x.name.text ++ x.space

def text (x : Layout) : Text := x.front ++ ending x.value

/-- The layout of a declaration of some kind: the keywords are right, and a global variable has a
value. -/
structure Suits (x : Layout) (kind : Kind) : Prop where
  opening : x.keywords.map Prod.fst ∈ kind.openings
  value : kind = .global → x.value.isSome = true

end Layout

/-! ## Texts have one layout -/

section Unique

variable {p : Char → Bool} {a a' b b' t t' : Text}

theorem prefix_unique (ha : ∀ c ∈ a, p c = true) (ha' : ∀ c ∈ a', p c = true)
    (hb : ∀ c ∈ b.head?, p c = false) (hb' : ∀ c ∈ b'.head?, p c = false)
    (h : a ++ b = a' ++ b') : a = a' ∧ b = b' := by
  have htake : ∀ {a b : Text}, (∀ c ∈ a, p c = true) → (∀ c ∈ b.head?, p c = false) →
      (a ++ b).takeWhile p = a := by
    intro a b ha hb
    rw [List.takeWhile_append_of_pos ha]
    cases b with
    | nil => exact List.append_nil a
    | cons c b =>
      rw [List.takeWhile_cons_of_neg (by rw [hb c rfl]; exact Bool.false_ne_true), List.append_nil]
  have haa : a = a' := by rw [← htake ha hb, h, htake ha' hb']
  exact ⟨haa, List.append_cancel_left (haa ▸ h)⟩

/-- A text is cut at the first place of a character in one way only. -/
theorem first_unique {c : Char} (ha : c ∉ a) (ha' : c ∉ a') (h : a ++ c :: t = a' ++ c :: t') :
    a = a' ∧ t = t' := by
  have hout : ∀ {u : Text}, c ∉ u → ∀ d ∈ u, (d != c) = true := fun hu d hd =>
    bne_iff_ne.2 fun hdc => hu (hdc ▸ hd)
  obtain ⟨haa, htt⟩ := prefix_unique (p := (· != c)) (hout ha) (hout ha') (by simp) (by simp) h
  exact ⟨haa, (List.cons.inj htt).2⟩

theorem suffix_unique (ha : ∀ c ∈ a, p c = true) (ha' : ∀ c ∈ a', p c = true)
    (hb : ∀ c ∈ b.getLast?, p c = false) (hb' : ∀ c ∈ b'.getLast?, p c = false)
    (h : b ++ a = b' ++ a') : b = b' ∧ a = a' := by
  have hrev : a.reverse ++ b.reverse = a'.reverse ++ b'.reverse := by
    rw [← List.reverse_append, h, List.reverse_append]
  obtain ⟨haa, hbb⟩ := prefix_unique (p := p) (by simpa using ha) (by simpa using ha')
    (by simpa using hb) (by simpa using hb') hrev
  exact ⟨List.reverse_inj.1 hbb, List.reverse_inj.1 haa⟩

theorem forall_mem_getLast?_append (hne : a ≠ []) (h : ∀ c ∈ a, p c = false) (b : Text) :
    ∀ c ∈ (b ++ a).getLast?, p c = false := by
  intro c hc
  rw [List.getLast?_append, List.getLast?_eq_some_getLast hne, Option.some_or] at hc
  cases hc
  exact h _ (List.getLast_mem hne)

end Unique

namespace SizedWord

variable {w w' : SizedWord}

theorem text_ne_nil (w : SizedWord) : w.text ≠ [] := by
  simp [text, w.isIdentifier.1]

theorem isSized_text (w : SizedWord) : ∀ c ∈ w.text, isSized c = true := by
  intro c hc
  rcases List.mem_append.1 hc with hc | hc
  · exact isSized_of_isWord (w.isIdentifier.2 c hc)
  · exact w.isSized_size c hc

theorem isBlank_text (w : SizedWord) : ∀ c ∈ w.text, Text.isBlank c = false :=
  fun c hc => isBlank_of_isSized (w.isSized_text c hc)

theorem word_eq (h : w.text = w'.text) : w.word = w'.word := by
  have hhead : ∀ w : SizedWord, ∀ c ∈ w.size.head?, Text.isWord c = false := by
    intro w c hc
    have hopens := w.opensWord_size
    unfold Text.opensWord at hopens
    rw [Option.mem_def.1 hc] at hopens
    exact hopens
  exact (prefix_unique w.isIdentifier.2 w'.isIdentifier.2 (hhead w) (hhead w') h).1

end SizedWord

namespace Layout

variable {x y : Layout} {t t' : Text}

theorem isSized_last_head (x : Layout) : ∀ c ∈ x.head.getLast?, isSized c = false := by
  rcases List.eq_nil_or_concat x.keywords with hnil | ⟨ks, k, hks⟩
  · simp [head, hnil]
  · obtain ⟨-, hne, hblank⟩ := x.isKeyword k (by simp [hks])
    have hhead : x.head = ks.flatMap (fun k => k.1 ++ k.2) ++ k.1 ++ k.2 := by
      simp [head, hks]
    rw [hhead]
    exact forall_mem_getLast?_append hne (fun c hc => isSized_of_isBlank (hblank c hc)) _

theorem front_unique (h : x.front = y.front) :
    x.type.text = y.type.text ∧ x.name.text = y.name.text := by
  have hname : ∀ x : Layout, ∀ c ∈ (x.head ++ x.type.text ++ x.gap ++ x.name.text).getLast?,
      Text.isBlank c = false :=
    fun x => forall_mem_getLast?_append x.name.text_ne_nil x.name.isBlank_text _
  have hgap : ∀ x : Layout, ∀ c ∈ (x.head ++ x.type.text ++ x.gap).getLast?, isSized c = false :=
    fun x => forall_mem_getLast?_append x.isGap.1
      (fun c hc => isSized_of_isBlank (x.isGap.2 c hc)) _
  have htype : ∀ x : Layout, ∀ c ∈ (x.head ++ x.type.text).getLast?, Text.isBlank c = false :=
    fun x => forall_mem_getLast?_append x.type.text_ne_nil x.type.isBlank_text _
  obtain ⟨h, -⟩ := suffix_unique x.isBlank_space y.isBlank_space (hname x) (hname y) h
  obtain ⟨h, hnames⟩ := suffix_unique x.name.isSized_text y.name.isSized_text (hgap x) (hgap y) h
  obtain ⟨h, -⟩ := suffix_unique x.isGap.2 y.isGap.2 (htype x) (htype y) h
  obtain ⟨-, htypes⟩ := suffix_unique x.type.isSized_text y.type.isSized_text
    x.isSized_last_head y.isSized_last_head h
  exact ⟨htypes, hnames⟩

theorem ending_unique {v w : Option Text} (hv : ∀ u, v = some u → ';' ∉ u)
    (hw : ∀ u, w = some u → ';' ∉ u) (h : ending v ++ t = ending w ++ t') : v = w ∧ t = t' := by
  cases v with
  | none =>
    cases w with
    | none => exact ⟨rfl, by simpa [ending] using h⟩
    | some w => simp [ending] at h
  | some v =>
    cases w with
    | none => simp [ending] at h
    | some w =>
      have h : v ++ ';' :: t = w ++ ';' :: t' := by simpa [ending] using h
      obtain ⟨rfl, ht⟩ := first_unique (hv v rfl) (hw w rfl) h
      exact ⟨rfl, ht⟩

/-- A character in front is a blank or part of a sized word. -/
theorem front_chars (x : Layout) : ∀ c ∈ x.front, (isSized c || Text.isBlank c) = true := by
  intro c hc
  simp only [front, head, List.mem_append, List.mem_flatMap] at hc
  rw [Bool.or_eq_true]
  rcases hc with (((⟨k, hk, hc⟩ | hc) | hc) | hc) | hc
  · obtain ⟨hword, hgap⟩ := x.isKeyword k hk
    exact hc.imp (fun hc => isSized_of_isWord (hword.2 c hc)) (hgap.2 c)
  · exact Or.inl (x.type.isSized_text c hc)
  · exact Or.inr (x.isGap.2 c hc)
  · exact Or.inl (x.name.isSized_text c hc)
  · exact Or.inr (x.isBlank_space c hc)

/-- A text has one type, one name and one value, also as the beginning of another text. -/
theorem unique (h : x.text ++ t = y.text ++ t') :
    x.type.word = y.type.word ∧ x.name.word = y.name.word ∧ x.value = y.value ∧ t = t' := by
  have hend : ∀ (v : Option Text) (t : Text), ∀ c ∈ (ending v ++ t).head?,
      (isSized c || Text.isBlank c) = false := by
    intro v t c hc
    cases v with
    | none =>
      cases hc
      decide
    | some v =>
      cases hc
      decide
  have h : x.front ++ (ending x.value ++ t) = y.front ++ (ending y.value ++ t') := by
    simpa [text] using h
  obtain ⟨hfront, hending⟩ := prefix_unique x.front_chars y.front_chars (hend _ _) (hend _ _) h
  obtain ⟨htype, hname⟩ := front_unique hfront
  obtain ⟨hvalue, ht⟩ := ending_unique x.semicolon_not_mem y.semicolon_not_mem hending
  exact ⟨SizedWord.word_eq htype, SizedWord.word_eq hname, hvalue, ht⟩

end Layout

/-! ## No blanks around a layout -/

theorem trim_eq_self {t : Text} (hhead : ∀ c ∈ t.head?, Text.isBlank c = false)
    (hlast : ∀ c ∈ t.getLast?, Text.isBlank c = false) : t.trim = t := by
  have hdrop : ∀ t : Text, (∀ c ∈ t.head?, Text.isBlank c = false) →
      t.dropWhile Text.isBlank = t := by
    intro t h
    cases t with
    | nil => rfl
    | cons c t => exact List.dropWhile_cons_of_neg (by rw [h c rfl]; exact Bool.false_ne_true)
  unfold Text.trim
  rw [hdrop t hhead, hdrop t.reverse (by simpa using hlast), List.reverse_reverse]

namespace Layout

theorem exists_first_word (x : Layout) : ∃ w t, Text.IsIdentifier w ∧ x.text = w ++ t := by
  cases hks : x.keywords with
  | nil => exact ⟨_, _, x.type.isIdentifier, by simp [text, front, head, hks, SizedWord.text]; rfl⟩
  | cons k ks =>
    have hk : k ∈ x.keywords := hks ▸ List.mem_cons_self
    exact ⟨_, _, (x.isKeyword k hk).1, by simp [text, front, head, hks]; rfl⟩

theorem isBlank_head_text (x : Layout) : ∀ c ∈ x.text.head?, Text.isBlank c = false := by
  obtain ⟨w, t, hw, htext⟩ := x.exists_first_word
  obtain ⟨d, w, rfl⟩ := List.exists_cons_of_ne_nil hw.1
  intro c hc
  rw [htext] at hc
  cases hc
  exact isBlank_of_isSized (isSized_of_isWord (hw.2 _ List.mem_cons_self))

theorem trim_text (x : Layout) : x.text.trim = x.text := by
  refine trim_eq_self x.isBlank_head_text ?_
  have hlast : ∃ u, x.text = u ++ [';'] := by
    cases hv : x.value with
    | none => exact ⟨x.front, by simp [text, ending, hv]⟩
    | some v => exact ⟨x.front ++ '=' :: v, by simp [text, ending, hv]⟩
  obtain ⟨u, hu⟩ := hlast
  have hsemicolon : Text.isBlank ';' = false := by decide
  rw [hu]
  exact forall_mem_getLast?_append (List.cons_ne_nil _ _) (by simpa using hsemicolon) u

end Layout

end ShaderLink
