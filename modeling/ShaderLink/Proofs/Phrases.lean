import ShaderLink.Proofs.Layouts

/-!
# Words with blanks between them

Every form of a declaration begins with words, each with the blanks behind it (`spaced`), and then a
character that is neither.  A text begins so in one way only (`Spaced.unique`), and a part of it at
the end is again a list of words, the first of them perhaps cut off (`Spaced.exists_of_append`).
-/

namespace ShaderLink

open Text

/-- At least one blank, and all of them within a line. -/
def IsLineGap (g : Text) : Prop := g ≠ [] ∧ ∀ c ∈ g, c = ' ' ∨ c = '\t'

/-- Words, each with the blanks behind it. -/
def spaced (ps : List (Text × Text)) : Text := ps.flatMap fun p => p.1 ++ p.2

@[simp] theorem spaced_nil : spaced [] = [] := rfl

@[simp] theorem spaced_cons (p : Text × Text) (ps : List (Text × Text)) :
    spaced (p :: ps) = p.1 ++ (p.2 ++ spaced ps) := List.append_assoc ..

/-- A character of a word, of an array size, or a blank. -/
def isWordOrBlank (c : Char) : Bool := isSized c || isBlank c

/-- Words with array sizes.  There are blanks between them; behind the last one there may be
none. -/
def Spaced : List (Text × Text) → Prop
  | [] => True
  | p :: ps => (p.1 ≠ [] ∧ ∀ c ∈ p.1, isSized c = true) ∧ p.2.AllBlank ∧ (ps ≠ [] → p.2 ≠ []) ∧
      Spaced ps

/-- The next character is that of a word or of an array size. -/
def opensSized (t : Text) : Bool := t.head?.any isSized

/-- Neither a word nor blanks go on here. -/
def Stops (t : Text) : Prop := ∀ c ∈ t.head?, isWordOrBlank c = false

variable {ps qs : List (Text × Text)} {t t' u w y z : Text} {c d : Char}

theorem isWordOrBlank_of_isSized (h : isSized c = true) : isWordOrBlank c = true := by
  rw [isWordOrBlank, h, Bool.true_or]

theorem isWordOrBlank_of_isBlank (h : isBlank c = true) : isWordOrBlank c = true := by
  rw [isWordOrBlank, h, Bool.or_true]

theorem isSized_of_not_isWordOrBlank (h : isWordOrBlank c = false) : isSized c = false :=
  (Bool.or_eq_false_iff.1 h).1

theorem isBlank_of_not_isWordOrBlank (h : isWordOrBlank c = false) : isBlank c = false :=
  (Bool.or_eq_false_iff.1 h).2

theorem stops_nil : Stops [] := fun _ h => nomatch h

theorem stops_cons (hc : isWordOrBlank c = false) (t : Text) : Stops (c :: t) := by
  rintro _ ⟨⟩
  exact hc

theorem opensSized_append (hu : u ≠ []) (t : Text) : opensSized (u ++ t) = opensSized u := by
  obtain ⟨c, u, rfl⟩ := List.exists_cons_of_ne_nil hu
  rfl

theorem opensSized_of_forall (hu : u ≠ []) (h : ∀ c ∈ u, isSized c = true) (t : Text) :
    opensSized (u ++ t) = true := by
  obtain ⟨c, u, rfl⟩ := List.exists_cons_of_ne_nil hu
  exact h c List.mem_cons_self

theorem ne_nil_of_opensSized (h : opensSized t = true) : t ≠ [] := by
  rintro rfl
  cases h

theorem Stops.opensSized (h : Stops t) : opensSized t = false := by
  cases t with
  | nil => rfl
  | cons c t => exact isSized_of_not_isWordOrBlank (h c rfl)

theorem AllBlank.opensSized_append (hu : u.AllBlank) (hne : u ≠ []) (t : Text) :
    opensSized (u ++ t) = false := by
  obtain ⟨c, u, rfl⟩ := List.exists_cons_of_ne_nil hne
  exact isSized_of_isBlank (hu c List.mem_cons_self)

theorem forall_mem_head?_of_opensSized (h : opensSized t = false) :
    ∀ c ∈ t.head?, isSized c = false := by
  intro c hc
  rw [opensSized, hc] at h
  exact h

namespace Spaced

theorem tail {p : Text × Text} (h : Spaced (p :: ps)) : Spaced ps := h.2.2.2

theorem right (h : Spaced (ps ++ qs)) : Spaced qs := by
  induction ps with
  | nil => exact h
  | cons p ps ih => exact ih h.tail

theorem opensSized (h : Spaced ps) (hne : ps ≠ []) (t : Text) :
    opensSized (spaced ps ++ t) = true := by
  obtain ⟨p, ps, rfl⟩ := List.exists_cons_of_ne_nil hne
  rw [spaced_cons, List.append_assoc]
  exact opensSized_of_forall h.1.1 h.1.2 _

/-- Behind the first word no character of a word comes next. -/
theorem opensSized_behind {p : Text × Text} (h : Spaced (p :: ps)) (ht : Stops t) :
    ShaderLink.opensSized (p.2 ++ (spaced ps ++ t)) = false := by
  by_cases hp : p.2 = []
  · have hps : ps = [] := by_contra fun hne => h.2.2.1 hne hp
    rw [hp, hps]
    exact ht.opensSized
  · exact AllBlank.opensSized_append h.2.1 hp _

theorem forall_mem (h : Spaced ps) : ∀ c ∈ spaced ps, isWordOrBlank c = true := by
  induction ps with
  | nil => exact List.forall_mem_nil _
  | cons p ps ih =>
    intro c hc
    rw [spaced_cons, List.mem_append, List.mem_append] at hc
    rcases hc with hc | hc | hc
    · exact isWordOrBlank_of_isSized (h.1.2 c hc)
    · exact isWordOrBlank_of_isBlank (h.2.1 c hc)
    · exact ih h.tail c hc

/-- A text begins with words in one way only. -/
theorem unique (hp : Spaced ps) (hq : Spaced qs) (ht : Stops t) (ht' : Stops t')
    (h : spaced ps ++ t = spaced qs ++ t') : ps = qs ∧ t = t' := by
  have hnil : ∀ {qs t t'}, Spaced qs → Stops t → t = spaced qs ++ t' → qs = [] := by
    intro qs t t' hq ht h
    by_contra hne
    have hopen := hq.opensSized hne t'
    rw [← h, ht.opensSized] at hopen
    cases hopen
  have hblank : ∀ {ps t}, Spaced ps → Stops t → ∀ c ∈ (spaced ps ++ t).head?,
      isBlank c = false := by
    intro ps t hp ht c hc
    cases ps with
    | nil => exact isBlank_of_not_isWordOrBlank (ht c hc)
    | cons p ps =>
      have hopen := hp.opensSized (List.cons_ne_nil p ps) t
      rw [ShaderLink.opensSized, hc] at hopen
      exact isBlank_of_isSized hopen
  induction ps generalizing qs with
  | nil =>
    obtain rfl := hnil hq ht h
    exact ⟨rfl, h⟩
  | cons p ps ih =>
    cases qs with
    | nil => exact absurd (hnil hp ht' h.symm) (List.cons_ne_nil p ps)
    | cons q qs =>
      rw [spaced_cons, spaced_cons, List.append_assoc, List.append_assoc, List.append_assoc,
        List.append_assoc] at h
      obtain ⟨hword, h⟩ := prefix_unique hp.1.2 hq.1.2
        (forall_mem_head?_of_opensSized (hp.opensSized_behind ht))
        (forall_mem_head?_of_opensSized (hq.opensSized_behind ht')) h
      obtain ⟨hgap, h⟩ := prefix_unique hp.2.1 hq.2.1 (hblank hp.tail ht) (hblank hq.tail ht') h
      obtain ⟨rfl, htt⟩ := ih hp.tail hq.tail h
      exact ⟨by rw [Prod.ext hword hgap], htt⟩

/-- What is at the end of a list of words, from the character of a word on, is again such a list,
the first word perhaps cut off. -/
theorem exists_of_append (hp : Spaced ps) (h : spaced ps = y ++ z)
    (hz : ShaderLink.opensSized z = true) : ∃ pre w v g post, ps = pre ++ (w ++ v, g) :: post ∧
      Spaced ((v, g) :: post) ∧ y = spaced pre ++ w ∧ z = spaced ((v, g) :: post) := by
  induction ps generalizing y with
  | nil => exact absurd (List.append_eq_nil_iff.1 h.symm).2 (ne_nil_of_opensSized hz)
  | cons p ps ih =>
    obtain ⟨x, g⟩ := p
    rw [spaced_cons] at h
    -- a place in the gap, or behind it, is a place in the other words
    have hlater : ∀ a, g ++ spaced ps = a ++ z → ∃ b, spaced ps = b ++ z ∧ a = g ++ b := by
      intro a ha
      rcases List.append_eq_append_iff.1 ha with ⟨b, rfl, hb⟩ | ⟨b, rfl, hb⟩
      · exact ⟨b, hb, rfl⟩
      · cases b with
        | nil => exact ⟨[], hb.symm, by simp⟩
        | cons c b =>
          rw [hb] at hz
          have hc : isBlank c = true := hp.2.1 c (by simp)
          rw [List.cons_append] at hz
          exact absurd (show isSized c = true from hz) (by simp [isSized_of_isBlank hc])
    rcases List.append_eq_append_iff.1 h with ⟨a, rfl, ha⟩ | ⟨a, rfl, ha⟩
    · obtain ⟨b, hb, rfl⟩ := hlater a ha
      obtain ⟨pre, w, v, g', post, rfl, hspaced, rfl, rfl⟩ := ih hp.tail hb
      exact ⟨(x, g) :: pre, w, v, g', post, rfl, hspaced, by simp, rfl⟩
    · cases a with
      | nil =>
        obtain ⟨b, hb, hnil⟩ := hlater [] ha.symm
        obtain ⟨rfl, rfl⟩ := List.append_eq_nil_iff.1 hnil.symm
        obtain ⟨pre, w, v, g', post, rfl, hspaced, hpre, rfl⟩ := ih hp.tail hb
        obtain ⟨hnone, rfl⟩ := List.append_eq_nil_iff.1 hpre.symm
        exact ⟨(y ++ [], []) :: pre, [], v, g', post, rfl, hspaced, by simp [hnone], rfl⟩
      | cons c a =>
        have hsized : ∀ d ∈ c :: a, isSized d = true := fun d hd =>
          hp.1.2 d (List.mem_append_right y hd)
        refine ⟨[], y, c :: a, g, ps, rfl, ⟨⟨List.cons_ne_nil c a, hsized⟩, hp.2⟩, rfl, ?_⟩
        rw [ha, spaced_cons]

end Spaced

end ShaderLink
