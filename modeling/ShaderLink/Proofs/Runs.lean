import Mathlib.Data.List.TakeWhile
import ShaderLink.Text.WholeWord

/-!
# Runs of word characters

`Text.runs` cuts a text into its words, the maximal runs of word characters, and the characters
between them.  A text is determined by its runs (`flatten_runs`), and a list of runs is the list of
runs of a text if it is `Proper` (`runs_flatten`).  The last section says where the pattern of a
whole word matches.
-/

namespace ShaderLink.Text

/-- A word of a text, or one character outside of words. -/
inductive Run where
  | word (w : Text)
  | other (c : Char)
deriving DecidableEq

namespace Run

def text : Run → Text
  | word w => w
  | other c => [c]

/-- Changes a word. -/
def map (f : Text → Text) : Run → Run
  | word w => word (f w)
  | other c => other c

@[simp] theorem map_word (f : Text → Text) (w : Text) : (word w).map f = word (f w) := rfl

@[simp] theorem map_other (f : Text → Text) (c : Char) : (other c).map f = other c := rfl

end Run

/-- Puts a character of a word in front of runs. -/
def joinWord (c : Char) : List Run → List Run
  | .word w :: rs => .word (c :: w) :: rs
  | rs => .word [c] :: rs

/-- The words of a text and the characters between them. -/
def runs : Text → List Run
  | [] => []
  | c :: t => if isWord c then joinWord c (runs t) else .other c :: runs t

/-- The text of runs. -/
def flatten (rs : List Run) : Text := rs.flatMap Run.text

/-- A word character comes first. -/
def opensWord (t : Text) : Bool := t.head?.any isWord

/-- A word character comes last. -/
def closesWord (t : Text) : Bool := t.getLast?.any isWord

@[simp] theorem flatten_nil : flatten [] = [] := rfl

@[simp] theorem flatten_cons (r : Run) (rs : List Run) :
    flatten (r :: rs) = r.text ++ flatten rs := rfl

@[simp] theorem opensWord_nil : opensWord [] = false := rfl

@[simp] theorem opensWord_cons (c : Char) (t : Text) : opensWord (c :: t) = isWord c := rfl

theorem IsIdentifier.opensWord {w : Text} (h : IsIdentifier w) (t : Text) :
    opensWord (w ++ t) = true := by
  obtain ⟨c, w, rfl⟩ := List.exists_cons_of_ne_nil h.1
  exact h.2 c List.mem_cons_self

theorem IsIdentifier.closesWord {w : Text} (h : IsIdentifier w) : closesWord w = true := by
  unfold Text.closesWord
  rw [List.getLast?_eq_some_getLast h.1]
  exact h.2 _ (List.getLast_mem h.1)

theorem opensWord_append {u : Text} (h : u ≠ []) (t : Text) :
    opensWord (u ++ t) = opensWord u := by
  obtain ⟨c, u, rfl⟩ := List.exists_cons_of_ne_nil h
  rfl

theorem closesWord_append {t : Text} (h : t ≠ []) (u : Text) :
    closesWord (u ++ t) = closesWord t := by
  unfold closesWord
  rw [List.getLast?_append, List.getLast?_eq_some_getLast h, Option.some_or]

theorem ne_nil_of_opensWord {t : Text} (h : opensWord t = true) : t ≠ [] := by
  rintro rfl
  cases h

theorem ne_nil_of_closesWord {t : Text} (h : closesWord t = true) : t ≠ [] := by
  rintro rfl
  cases h

/-! ## Cutting and joining -/

theorem runs_other {c : Char} (hc : isWord c = false) (t : Text) :
    runs (c :: t) = .other c :: runs t := by
  simp [runs, hc]

/-- The runs begin with a word only if the text does. -/
theorem runs_of_not_opensWord {t : Text} (h : opensWord t = false) (w : Text) (rs : List Run) :
    runs t ≠ .word w :: rs := by
  cases t with
  | nil => simp [runs]
  | cons c t => simp [runs_other h]

theorem runs_word {w t : Text} (hw : IsIdentifier w) (ht : opensWord t = false) :
    runs (w ++ t) = .word w :: runs t := by
  obtain ⟨c, w, rfl⟩ := List.exists_cons_of_ne_nil hw.1
  induction w generalizing c with
  | nil =>
    have hc : isWord c = true := hw.2 c List.mem_cons_self
    simp only [List.cons_append, List.nil_append, runs, hc, if_true]
    cases hr : runs t with
    | nil => rfl
    | cons r rs =>
      cases r with
      | word v => exact absurd hr (runs_of_not_opensWord ht v rs)
      | other d => rfl
  | cons d w ih =>
    have hc : isWord c = true := hw.2 c List.mem_cons_self
    have hd : IsIdentifier (d :: w) :=
      ⟨List.cons_ne_nil d w, fun e he => hw.2 e (List.mem_cons_of_mem _ he)⟩
    rw [List.cons_append, runs, if_pos hc, ih d hd]
    rfl

/-- A text is empty, begins with a character outside of words, or with a word. -/
theorem runs_induction {motive : Text → Prop} (nil : motive [])
    (other : ∀ c t, isWord c = false → motive t → motive (c :: t))
    (word : ∀ w t, IsIdentifier w → opensWord t = false → motive t → motive (w ++ t))
    (t : Text) : motive t := by
  induction hn : t.length using Nat.strongRecOn generalizing t with
  | ind n ih =>
    subst hn
    cases t with
    | nil => exact nil
    | cons c t =>
      cases hc : isWord c with
      | false => exact other c t hc (ih _ (by simp) t rfl)
      | true =>
        have hcut : (c :: t.takeWhile isWord) ++ t.dropWhile isWord = c :: t := by
          simp [List.takeWhile_append_dropWhile]
        rw [← hcut]
        refine word _ _ ⟨List.cons_ne_nil _ _, ?_⟩ ?_ (ih _ ?_ _ rfl)
        · intro d hd
          rcases List.mem_cons.1 hd with rfl | hd
          · exact hc
          · exact List.mem_takeWhile_imp hd
        · have hhead := List.head?_dropWhile_not isWord t
          simp only [opensWord]
          cases hd : (t.dropWhile isWord).head? with
          | none => rfl
          | some d =>
            rw [hd] at hhead
            simpa using hhead
        · have := (List.dropWhile_sublist isWord (l := t)).length_le
          simp only [List.length_cons]
          omega

/-- A text can be cut where no word goes on. -/
theorem runs_append {t : Text} (ht : opensWord t = false) (u : Text) :
    runs (u ++ t) = runs u ++ runs t := by
  induction u using runs_induction with
  | nil => rfl
  | other c u hc ih => rw [List.cons_append, runs_other hc, runs_other hc, ih, List.cons_append]
  | word w u hw hu ih =>
    have hut : opensWord (u ++ t) = false := by
      cases u with
      | nil => exact ht
      | cons c u => exact hu
    rw [List.append_assoc, runs_word hw hut, runs_word hw hu, ih, List.cons_append]

theorem runs_others {u : Text} (hu : ∀ c ∈ u, isWord c = false) (t : Text) :
    runs (u ++ t) = u.map .other ++ runs t := by
  induction u with
  | nil => rfl
  | cons c u ih =>
    rw [List.forall_mem_cons] at hu
    rw [List.cons_append, runs_other hu.1, ih hu.2, List.map_cons, List.cons_append]

theorem flatten_runs (t : Text) : flatten (runs t) = t := by
  induction t using runs_induction with
  | nil => rfl
  | other c t hc ih => simp [runs_other hc, ih, Run.text]
  | word w t hw ht ih => simp [runs_word hw ht, ih, Run.text]

/-- Words are not empty, consist of word characters and do not stand side by side. -/
def Proper : List Run → Prop
  | [] => True
  | .other c :: rs => isWord c = false ∧ Proper rs
  | .word w :: rs => IsIdentifier w ∧ opensWord (flatten rs) = false ∧ Proper rs

theorem proper_runs (t : Text) : Proper (runs t) := by
  induction t using runs_induction with
  | nil => trivial
  | other c t hc ih =>
    rw [runs_other hc]
    exact ⟨hc, ih⟩
  | word w t hw ht ih =>
    rw [runs_word hw ht]
    exact ⟨hw, by rwa [flatten_runs], ih⟩

theorem Proper.isIdentifier {w : Text} {rs : List Run} (h : Proper rs) (hw : .word w ∈ rs) :
    IsIdentifier w := by
  induction rs with
  | nil => cases hw
  | cons r rs ih =>
    rcases List.mem_cons.1 hw with rfl | hmem
    · exact h.1
    · cases r with
      | other c => exact ih h.2 hmem
      | word v => exact ih h.2.2 hmem

theorem runs_flatten {rs : List Run} (h : Proper rs) : runs (flatten rs) = rs := by
  induction rs with
  | nil => rfl
  | cons r rs ih =>
    cases r with
    | other c =>
      simp only [flatten_cons, Run.text, List.cons_append, List.nil_append]
      rw [runs_other h.1, ih h.2]
    | word w =>
      simp only [flatten_cons, Run.text]
      rw [runs_word h.1 h.2.1, ih h.2.2]

theorem flatten_inj {rs rs' : List Run} (h : Proper rs) (h' : Proper rs') :
    flatten rs = flatten rs' ↔ rs = rs' := by
  refine ⟨fun he => ?_, congrArg flatten⟩
  rw [← runs_flatten h, he, runs_flatten h']

/-! ## Matching a whole word -/

section WholeWord

open Pattern

theorem getLast?_or_cons (c : Char) (w : Text) (b : Option Char) :
    w.getLast?.or (some c) = (c :: w).getLast?.or b := by
  cases w with
  | nil => rfl
  | cons d w => simp [List.getLast?_cons]

theorem run_exactly_append (w t : Text) (b : Option Char) (n : Nat) (gs : List (Nat × Span))
    (done : Cursor → Option Cursor) :
    (exactly w).run ⟨b, w ++ t, n, gs⟩ done = done ⟨w.getLast?.or b, t, n - w.length, gs⟩ := by
  induction w generalizing b n with
  | nil => rfl
  | cons c w ih =>
    have hstep : (exactly (c :: w)).run ⟨b, c :: w ++ t, n, gs⟩ done =
        (exactly w).run ⟨some c, w ++ t, n - 1, gs⟩ done := by
      show (if (c == c) = true then _ else none) = _
      rw [if_pos (beq_self_eq_true c)]
      rfl
    rw [hstep, ih, getLast?_or_cons, List.length_cons, Nat.sub_sub, Nat.add_comm 1]

theorem run_exactly_of_not_prefix {w : Text} {k : Cursor} (h : ¬ w <+: k.rest)
    (done : Cursor → Option Cursor) : (exactly w).run k done = none := by
  induction w generalizing k with
  | nil => exact absurd (List.nil_prefix) h
  | cons c w ih =>
    show (match k.rest with
      | [] => none
      | d :: t => if (d == c) = true then (exactly w).run (k.next d t) done else none) = none
    cases hk : k.rest with
    | nil => rfl
    | cons d t =>
      by_cases hd : (d == c) = true
      · rw [hk, beq_iff_eq.1 hd, List.cons_prefix_cons] at h
        simp only [hd, if_true]
        exact ih fun hw => h ⟨rfl, hw⟩
      · simp only [hd, Bool.false_eq_true, if_false]

theorem run_wholeWord (w : Text) (k : Cursor) (done : Cursor → Option Cursor) :
    (wholeWord w).run k done = if k.atWordEdge then
      (exactly w).run k fun k' => if k'.atWordEdge then done k' else none else none := rfl

theorem groupCount_wholeWord (w : Text) : (wholeWord w).groupCount = 0 := by
  have h : (exactly w).groupCount = 0 := by
    induction w with
    | nil => rfl
    | cons c w ih => exact (Nat.max_eq_right (Nat.zero_le _)).trans ih
  show max (max 0 (exactly w).groupCount) 0 = 0
  rw [h]
  rfl

theorem here_wholeWord_of_not_edge {w t : Text} {b : Option Char} {start left : Nat}
    (h : b.any isWord = opensWord t) : (wholeWord w).here b start left t = none := by
  have hedge : Cursor.atWordEdge ⟨b, t, left, []⟩ = false := by
    show (b.any isWord != opensWord t) = false
    simp [h]
  rw [here, run_wholeWord, hedge]
  rfl

theorem here_wholeWord_of_not_prefix {w t : Text} {b : Option Char} {start left : Nat}
    (h : ¬ w <+: t) : (wholeWord w).here b start left t = none := by
  rw [here, run_wholeWord, run_exactly_of_not_prefix h]
  simp

variable {w : Text} (hclose : closesWord w = true)
include hclose

/-- A word that goes on behind `w` is not `w`. -/
theorem here_wholeWord_longer {t : Text} {b : Option Char} {start left : Nat}
    (ht : opensWord t = true) : (wholeWord w).here b start left (w ++ t) = none := by
  have hlast : (w.getLast?.or b).any isWord = true := by
    rw [List.getLast?_eq_some_getLast (ne_nil_of_closesWord hclose), Option.some_or,
      ← List.getLast?_eq_some_getLast (ne_nil_of_closesWord hclose)]
    exact hclose
  have hedge : ∀ n, Cursor.atWordEdge ⟨w.getLast?.or b, t, n, []⟩ = false := by
    intro n
    show ((w.getLast?.or b).any isWord != opensWord t) = false
    rw [hlast, ht]
    rfl
  rw [here, run_wholeWord, run_exactly_append]
  simp [hedge]

theorem here_wholeWord_self (hopen : opensWord w = true) {t : Text} {b : Option Char}
    (hb : b.any isWord = false) (ht : opensWord t = false) (start : Nat) :
    (wholeWord w).here b start (w ++ t).length (w ++ t) = some ⟨start, w, []⟩ := by
  have hne : w ≠ [] := ne_nil_of_opensWord hopen
  have hlast : (w.getLast?.or b).any isWord = true := by
    rw [List.getLast?_eq_some_getLast hne, Option.some_or, ← List.getLast?_eq_some_getLast hne]
    exact hclose
  have hfirst : Cursor.atWordEdge ⟨b, w ++ t, (w ++ t).length, []⟩ = true := by
    show (b.any isWord != opensWord (w ++ t)) = true
    rw [hb, opensWord_append hne, hopen]
    rfl
  have hsecond : ∀ n, Cursor.atWordEdge ⟨w.getLast?.or b, t, n, []⟩ = true := by
    intro n
    show ((w.getLast?.or b).any isWord != opensWord t) = true
    rw [hlast, ht]
    rfl
  rw [here, run_wholeWord, hfirst, if_pos rfl, run_exactly_append, hsecond, if_pos rfl,
    groupCount_wholeWord]
  simp [Cursor.upTo, Span.text]

end WholeWord

end ShaderLink.Text
