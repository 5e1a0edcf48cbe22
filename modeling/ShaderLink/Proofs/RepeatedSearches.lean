import ShaderLink.Proofs.Spans

/-!
# Searching again and again

Searching goes on behind each match, in what follows it taken as a text of its own, until nothing is
found.  It comes to an end if what is found is never empty (`NeverEmpty.collects_iff`), and what it
collects can be told from where the pattern matches in these texts: `sequence_outcome`.
-/

namespace ShaderLink

namespace Pattern

variable {p : Pattern} {t u : Text} {m : Match} {ms ms' : List Match} {n offset fuel : Nat}

/-! ## Collecting matches -/

/-- What is collected by searching until nothing is found, each time in the text behind the last
match, `offset` characters into the whole; at least one character is passed each time. -/
inductive Collects (p : Pattern) : (offset : Nat) → Text → List Match → Prop
  | nothing {offset : Nat} {t : Text} : p.search t = none → Collects p offset t []
  | found {offset : Nat} {t : Text} {m : Match} {ms : List Match} : p.search t = some m →
    Collects p (offset + max m.stop 1) (t.drop (max m.stop 1)) ms →
    Collects p offset t (m.shift offset :: ms)

theorem Collects.unique (h : p.Collects offset t ms) (h' : p.Collects offset t ms') : ms = ms' := by
  induction h generalizing ms' with
  | nothing hnone =>
    cases h' with
    | nothing => rfl
    | found hm =>
      rw [hnone] at hm
      cases hm
  | found hm _ ih =>
    cases h' with
    | nothing hnone =>
      rw [hm] at hnone
      cases hnone
    | found hm' h' =>
      obtain rfl := Option.some.inj (hm.symm.trans hm')
      rw [ih h']

/-- The offset behind the last match, or the given one if there is none. -/
def behind : Nat → List Match → Nat
  | n, [] => n
  | _, m :: ms => behind m.stop ms

/-- Each match is the first one in the text behind the last match, taken as a text of its own, and
there is none in the text behind the last one of all. -/
structure Successive (p : Pattern) (t : Text) (n : Nat) (ms : List Match) : Prop where
  first : ∀ us m vs, ms = us ++ m :: vs → ∃ m₀, m = m₀.shift (behind n us) ∧
    p.matchAt (t.drop (behind n us)) m₀.start = some m₀ ∧
    ∀ i < m₀.start, p.matchAt (t.drop (behind n us)) i = none
  done : ∀ i ≤ (t.drop (behind n ms)).length, p.matchAt (t.drop (behind n ms)) i = none

theorem successive_nil (h : p.search (t.drop n) = none) : p.Successive t n [] where
  first us m vs hcut := absurd hcut (by simp)
  done i hi := by
    have hnone := firstFrom_search p (t.drop n)
    rw [h] at hnone
    exact hnone i (Nat.zero_le i) hi

theorem Successive.cons (hm : p.search (t.drop n) = some m)
    (h : p.Successive t (n + m.stop) ms) : p.Successive t n (m.shift n :: ms) where
  first us m' vs hcut := by
    cases us with
    | nil =>
      obtain ⟨rfl, -⟩ := List.cons.inj hcut
      obtain ⟨-, hhere, hearlier⟩ := firstFrom_of_search hm
      exact ⟨m, rfl, hhere, fun i hi => hearlier i (Nat.zero_le i) hi⟩
    | cons m₁ us =>
      obtain ⟨rfl, hrest⟩ := List.cons.inj hcut
      rw [behind, Match.stop_shift]
      exact h.first us m' vs hrest
  done := by
    rw [behind, Match.stop_shift]
    exact h.done

namespace NeverEmpty

variable (hp : p.NeverEmpty)
include hp

theorem search_nil : p.search [] = none := by
  cases hm : p.search [] with
  | none => rfl
  | some m =>
    have hprefix := (liesIn_of_search hm).isPrefix
    rw [List.drop_nil, List.prefix_nil] at hprefix
    exact absurd hprefix (hp _ m hm)

/-- Each match passes at least one character, so there are fewer of them than rounds. -/
theorem collects_sequenceFrom (hfuel : t.length < fuel) :
    p.Collects offset t (p.sequenceFrom fuel offset t) := by
  induction fuel generalizing offset t with
  | zero => cases hfuel
  | succ fuel ih =>
    unfold sequenceFrom
    cases hm : p.search t with
    | none => exact .nothing hm
    | some m =>
      have hne : t ≠ [] := by
        rintro rfl
        rw [hp.search_nil] at hm
        cases hm
      have hpos : 0 < t.length := List.length_pos_iff.2 hne
      refine .found hm (ih ?_)
      rw [List.length_drop]
      omega

theorem collects_iff : p.Collects 0 t ms ↔ ms = p.sequence t := by
  have hsequence : p.Collects 0 t (p.sequence t) := hp.collects_sequenceFrom (Nat.lt_succ_self _)
  exact ⟨fun h => h.unique hsequence, fun h => h ▸ hsequence⟩

theorem successive (h : p.Collects offset u ms) (hu : u = t.drop offset) :
    p.Successive t offset ms := by
  induction h with
  | nothing hnone => exact successive_nil (hu ▸ hnone)
  | @found offset u m ms hm _ ih =>
    subst hu
    rw [Match.max_stop_one (hp _ m hm), List.drop_drop] at ih
    exact .cons hm (ih rfl)

end NeverEmpty

/-- With a pattern that never takes the empty text, searching again and again comes to an end.  The
matches that are collected are parts of the text and stand one behind the other.  Each is the first
one in the text behind the last match, taken as a text of its own, and there is none behind the last
one of all. -/
theorem sequence_outcome (hp : p.NeverEmpty) (t : Text) :
    (∀ ms, p.Collects 0 t ms ↔ ms = p.sequence t) ∧
    (∀ m ∈ p.sequence t, m.stop ≤ t.length ∧ (t.take m.stop).drop m.start = m.text) ∧
    (p.sequence t).Pairwise (fun m m' => m.stop ≤ m'.start) ∧
    (∀ us m vs, p.sequence t = us ++ m :: vs → ∃ m₀, m = m₀.shift (behind 0 us) ∧
      p.matchAt (t.drop (behind 0 us)) m₀.start = some m₀ ∧
      ∀ i < m₀.start, p.matchAt (t.drop (behind 0 us)) i = none) ∧
    ∀ i ≤ (t.drop (behind 0 (p.sequence t))).length,
      p.matchAt (t.drop (behind 0 (p.sequence t))) i = none := by
  have hplaced := placed_sequence_of_neverEmpty hp t
  have hsuccessive : p.Successive t 0 (p.sequence t) :=
    hp.successive (hp.collects_iff.2 rfl) rfl
  refine ⟨fun _ => hp.collects_iff, fun m hm => ?_, hplaced.pairwise, hsuccessive.first,
    hsuccessive.done⟩
  have hlies := hplaced.liesIn m hm
  exact ⟨hlies.stop_le, hlies.slice_eq⟩

/-- One letter at the beginning of a text, remembered, and the blanks behind it. -/
def firstLetter : Pattern := textStart ++ group 1 letter ++ blanks

/-- At the beginning of a text, but found in it again and again. -/
theorem sequence_outcome_anchored : firstLetter.NeverEmpty ∧
    firstLetter.sequence "a b; c".toList = [⟨0, "a ".toList, [some "a".toList]⟩,
      ⟨2, "b".toList, [some "b".toList]⟩] ∧
    (∀ i ≤ 3, firstLetter.matchAt "; c".toList i = none) := by
  have hp : firstLetter.NeverEmpty := neverEmpty_of_consumes rfl
  obtain ⟨-, -, -, -, hdone⟩ := sequence_outcome hp "a b; c".toList
  have hfound : firstLetter.sequence "a b; c".toList = [⟨0, "a ".toList, [some "a".toList]⟩,
      ⟨2, "b".toList, [some "b".toList]⟩] := by decide +kernel
  rw [hfound] at hdone
  exact ⟨hp, hfound, hdone⟩

end Pattern

end ShaderLink
