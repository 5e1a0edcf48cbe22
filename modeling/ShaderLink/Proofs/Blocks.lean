import Mathlib.Order.Bounds.Basic
import ShaderLink.Proofs.Rereading

/-!
# Bracketed blocks

A block begins with the first opening bracket, and ends as soon as as many brackets have been closed
as opened.  The search counts how many brackets stand open; before the end of the block this number
is positive, and at its end it is zero for the first time (`closes_closingLength`).  So where a
block ends can be told from the numbers of brackets in parts of the text alone: `blockEnd_outcome`.
-/

namespace ShaderLink.Text

variable {o c d : Char} {t u : Text} {depth depth' n i start stop : Nat} {r : Option Nat}

/-! ## Brackets that stand open -/

/-- How many brackets stand open behind a text, if there were `depth` before it. -/
def standing (o c : Char) (depth : Nat) (u : Text) : Int := depth + u.count o - u.count c

theorem standing_nil : standing o c depth [] = depth := by
  simp [standing]

theorem standing_opening (h : o ≠ c) (u : Text) :
    standing o c depth (o :: u) = standing o c (depth + 1) u := by
  simp only [standing, List.count_cons_self, List.count_cons_of_ne h]
  omega

theorem standing_closing (h : o ≠ c) (u : Text) :
    standing o c (depth + 1) (c :: u) = standing o c depth u := by
  simp only [standing, List.count_cons_self, List.count_cons_of_ne h.symm]
  omega

theorem standing_other (ho : d ≠ o) (hc : d ≠ c) (u : Text) :
    standing o c depth (d :: u) = standing o c depth u := by
  simp only [standing, List.count_cons_of_ne ho, List.count_cons_of_ne hc]

/-- Brackets stand open up to a length, at which the last one is closed; or always, if there is no
such length. -/
def Closes (o c : Char) (depth : Nat) (t : Text) : Option Nat → Prop
  | some n => standing o c depth (t.take n) = 0 ∧ ∀ m < n, 0 < standing o c depth (t.take m)
  | none => ∀ m, 0 < standing o c depth (t.take m)

/-- One character further on. -/
theorem Closes.cons (hstep : ∀ u, standing o c depth (d :: u) = standing o c depth' u)
    (hdepth : 0 < depth) (h : Closes o c depth' t r) :
    Closes o c depth (d :: t) (r.map (· + 1)) := by
  have hfirst : 0 < standing o c depth [] := by
    rw [standing_nil]
    exact_mod_cast hdepth
  cases r with
  | none =>
    intro m
    cases m with
    | zero => exact hfirst
    | succ m => exact hstep _ ▸ h m
  | some n =>
    refine ⟨(hstep _).trans h.1, fun m hm => ?_⟩
    cases m with
    | zero => exact hfirst
    | succ m => exact hstep _ ▸ h.2 m (Nat.lt_of_succ_lt_succ hm)

/-- Counting finds the first place at which no bracket stands open. -/
theorem closes_closingLength (h : o ≠ c) (hdepth : 0 < depth) (t : Text) :
    Closes o c depth t (closingLength o c depth t) := by
  induction t generalizing depth with
  | nil =>
    intro m
    rw [List.take_nil, standing_nil]
    exact_mod_cast hdepth
  | cons d t ih =>
    rw [closingLength]
    split
    · rename_i hopen
      subst hopen
      exact (ih (Nat.succ_pos depth)).cons (standing_opening h) hdepth
    · rename_i hopen
      split
      · rename_i hclose
        obtain ⟨depth, rfl⟩ := Nat.exists_eq_succ_of_ne_zero hdepth.ne'
        subst hclose
        split
        · -- the last bracket is closed
          obtain rfl : depth = 0 := by omega
          refine ⟨(standing_closing h []).trans standing_nil, fun m hm => ?_⟩
          obtain rfl : m = 0 := by omega
          exact standing_nil.symm ▸ Int.one_pos
        · exact (ih (by omega)).cons (standing_closing h) hdepth
      · rename_i hclose
        exact (ih hdepth).cons (standing_other hopen hclose) hdepth

/-! ## Blocks -/

/-- The places from `start` on at which a bracket stands. -/
def places (o : Char) (t : Text) (start : Nat) : Set Nat := {i | start ≤ i ∧ t[i]? = some o}

/-- The places behind `i` up to which as many brackets are closed as opened. -/
def evenEnds (o c : Char) (t : Text) (i : Nat) : Set Nat :=
  {e | i < e ∧ ((t.take e).drop i).count c = ((t.take e).drop i).count o}

/-- What is taken from an opening bracket on. -/
theorem drop_take_of_getElem? (ht : t[i]? = some o) (m : Nat) :
    (t.take (i + 1 + m)).drop i = o :: (t.drop (i + 1)).take m := by
  obtain ⟨hi, ho⟩ := List.getElem?_eq_some_iff.1 ht
  have hlength : i + 1 + m - i = m + 1 := by omega
  rw [List.drop_take, hlength, List.drop_eq_getElem_cons hi, ho, List.take_succ_cons]

theorem mem_evenEnds_iff (h : o ≠ c) (ht : t[i]? = some o) (m : Nat) :
    i + 1 + m ∈ evenEnds o c t i ↔ standing o c 1 ((t.drop (i + 1)).take m) = 0 := by
  have hstanding : standing o c 1 ((t.drop (i + 1)).take m) =
      standing o c 0 ((t.take (i + 1 + m)).drop i) := by
    rw [drop_take_of_getElem? ht, standing_opening h]
  have hlt : i < i + 1 + m := by omega
  rw [hstanding, standing]
  refine (and_iff_right hlt).trans ?_
  omega

theorem isLeast_evenEnds_iff (h : o ≠ c) (ht : t[i]? = some o) (stop : Nat) :
    IsLeast (evenEnds o c t i) stop ↔
      ∃ n, closingLength o c 1 (t.drop (i + 1)) = some n ∧ i + 1 + n = stop := by
  have hcloses := closes_closingLength h Nat.one_pos (t.drop (i + 1))
  constructor
  · rintro ⟨hmem, hleast⟩
    obtain ⟨m, rfl⟩ := Nat.exists_eq_add_of_le (show i + 1 ≤ stop from hmem.1)
    have hzero := (mem_evenEnds_iff h ht m).1 hmem
    cases hn : closingLength o c 1 (t.drop (i + 1)) with
    | none =>
      rw [hn] at hcloses
      exact absurd hzero (hcloses m).ne'
    | some n =>
      rw [hn] at hcloses
      have hge : n ≤ m := by
        by_contra hlt
        exact (hcloses.2 m (Nat.lt_of_not_le hlt)).ne' hzero
      have hle := hleast ((mem_evenEnds_iff h ht n).2 hcloses.1)
      exact ⟨n, rfl, by omega⟩
  · rintro ⟨n, hn, rfl⟩
    rw [hn] at hcloses
    refine ⟨(mem_evenEnds_iff h ht n).2 hcloses.1, fun e he => ?_⟩
    obtain ⟨m, rfl⟩ := Nat.exists_eq_add_of_le (show i + 1 ≤ e from he.1)
    have hzero := (mem_evenEnds_iff h ht m).1 he
    by_contra hlt
    exact (hcloses.2 m (by omega)).ne' hzero

theorem isLeast_places_iff : IsLeast (places o t start) i ↔
    ∃ j, (t.drop start).findIdx? (· == o) = some j ∧ start + j = i := by
  have hmem : ∀ j, start + j ∈ places o t start ↔ (t.drop start)[j]? = some o := by
    intro j
    rw [List.getElem?_drop]
    exact and_iff_right (Nat.le_add_right start j)
  constructor
  · rintro ⟨hi, hleast⟩
    obtain ⟨j, rfl⟩ := Nat.exists_eq_add_of_le hi.1
    obtain ⟨hj, ho⟩ := List.getElem?_eq_some_iff.1 ((hmem j).1 hi)
    refine ⟨j, List.findIdx?_eq_some_iff_getElem.2 ⟨hj, beq_iff_eq.2 ho, fun m hm hmo => ?_⟩, rfl⟩
    have hle := hleast ((hmem m).2 (List.getElem?_eq_some_iff.2 ⟨by omega, beq_iff_eq.1 hmo⟩))
    omega
  · rintro ⟨j, hj, rfl⟩
    obtain ⟨hlt, ho, hfirst⟩ := List.findIdx?_eq_some_iff_getElem.1 hj
    refine ⟨(hmem j).2 (List.getElem?_eq_some_iff.2 ⟨hlt, beq_iff_eq.1 ho⟩), fun e he => ?_⟩
    obtain ⟨m, rfl⟩ := Nat.exists_eq_add_of_le he.1
    obtain ⟨hm, hmo⟩ := List.getElem?_eq_some_iff.1 ((hmem m).1 he)
    by_contra hlt'
    exact hfirst m (by omega) (beq_iff_eq.2 hmo)

theorem blockEnd_of_isLeast (hi : IsLeast (places o t start) i) :
    blockEnd [o] [c] t start = match closingLength o c 1 (t.drop (i + 1)) with
      | none => .error Cause.unclosedBlock.fault
      | some n => .ok (i + 1 + n) := by
  obtain ⟨hlt, ho⟩ := List.getElem?_eq_some_iff.1 hi.1.2
  obtain ⟨j, hj, hij⟩ := isLeast_places_iff.1 hi
  rw [blockEnd_singleton, closingIndex, offset_natCast]
  simp only [hj]
  rw [hij, List.drop_eq_getElem_cons hlt, ho, closingLength, if_pos rfl]
  cases closingLength o c 1 (t.drop (i + 1)) with
  | none => rfl
  | some n =>
    show Except.ok (i + (n + 1)) = Except.ok (i + 1 + n)
    rw [Nat.add_right_comm, Nat.add_assoc]

theorem blockEnd_of_no_place (hnone : ∀ i, ¬ IsLeast (places o t start) i) :
    blockEnd [o] [c] t start = .error (Cause.noBlock [o] start).fault := by
  rw [blockEnd_singleton, closingIndex, offset_natCast]
  cases hj : (t.drop start).findIdx? (· == o) with
  | none => rfl
  | some j => exact absurd (isLeast_places_iff.2 ⟨j, hj, rfl⟩) (hnone _)

/-- A text that is closed at its end and not before. -/
structure IsBlock (o c : Char) (b : Text) : Prop where
  begins : b.head? = some o
  ends : b.getLast? = some c
  staysOpen : ∀ u, u <+: b → u ≠ [] → u ≠ b → u.count c < u.count o

theorem isBlock_of_isLeast (h : o ≠ c) (ht : t[i]? = some o)
    (hstop : IsLeast (evenEnds o c t i) stop) : IsBlock o c ((t.take stop).drop i) := by
  obtain ⟨n, hn, rfl⟩ := (isLeast_evenEnds_iff h ht stop).1 hstop
  obtain ⟨v, hv⟩ := exists_concat_of_closingLength le_rfl hn
  have hcloses := closes_closingLength h Nat.one_pos (t.drop (i + 1))
  rw [hn] at hcloses
  rw [drop_take_of_getElem? ht]
  refine ⟨rfl, by rw [hv, ← List.cons_append, List.getLast?_concat], fun u hu hne hproper => ?_⟩
  obtain ⟨w, rfl, hw⟩ := (List.prefix_cons_iff.1 hu).resolve_left hne
  -- a proper beginning of what is taken behind the opening bracket
  have hlt : w.length < n := by
    by_contra hge
    refine hproper (congrArg (o :: ·) (hw.eq_of_length_le ?_))
    exact (List.length_take_le ..).trans (Nat.le_of_not_lt hge)
  have hbegins : (t.drop (i + 1)).take w.length = w :=
    (List.prefix_iff_eq_take.1 (hw.trans (List.take_prefix ..))).symm
  have hstanding := hcloses.2 w.length hlt
  rw [hbegins, ← Nat.zero_add 1, ← standing_opening h, standing] at hstanding
  omega

/-! ## The end of a block -/

theorem blockEnd_eq_ok_iff (h : o ≠ c) : blockEnd [o] [c] t start = .ok stop ↔
    ∃ i, IsLeast (places o t start) i ∧ IsLeast (evenEnds o c t i) stop := by
  constructor
  · intro hend
    by_cases hplace : ∃ i, IsLeast (places o t start) i
    · obtain ⟨i, hi⟩ := hplace
      refine ⟨i, hi, (isLeast_evenEnds_iff h hi.1.2 stop).2 ?_⟩
      rw [blockEnd_of_isLeast hi] at hend
      cases hn : closingLength o c 1 (t.drop (i + 1)) with
      | none =>
        rw [hn] at hend
        cases hend
      | some n =>
        rw [hn] at hend
        exact ⟨n, rfl, Except.ok.inj hend⟩
    · rw [blockEnd_of_no_place (not_exists.1 hplace)] at hend
      cases hend
  · rintro ⟨i, hi, hstop⟩
    obtain ⟨n, hn, rfl⟩ := (isLeast_evenEnds_iff h hi.1.2 stop).1 hstop
    rw [blockEnd_of_isLeast hi, hn]

theorem family_of_blockEnd {f : Fault} (hf : blockEnd [o] [c] t start = .error f) :
    f.cause.family = some .malformedBlock := by
  rw [blockEnd_singleton] at hf
  unfold closingIndex at hf
  simp only at hf
  split at hf
  · cases hf
    rfl
  · split at hf
    · cases hf
      rfl
    · cases hf

/-- Where the first block ends can be told from the numbers of brackets: it begins with the first
opening bracket, and ends where as many have been closed as opened.  Inside of it some bracket is
open.  It is a fault if there is no such place. -/
theorem blockEnd_outcome (h : o ≠ c) (t : Text) (start : Nat) :
    (∀ stop, blockEnd [o] [c] t start = .ok stop ↔
      ∃ i, IsLeast (places o t start) i ∧ IsLeast (evenEnds o c t i) stop) ∧
    (∀ i stop, IsLeast (places o t start) i → IsLeast (evenEnds o c t i) stop →
      IsBlock o c ((t.take stop).drop i)) ∧
    ((∃ f, blockEnd [o] [c] t start = .error f ∧ f.cause.family = some .malformedBlock) ↔
      ¬ ∃ i stop, IsLeast (places o t start) i ∧ IsLeast (evenEnds o c t i) stop) := by
  refine ⟨fun stop => blockEnd_eq_ok_iff h,
    fun i stop hi hstop => isBlock_of_isLeast h hi.1.2 hstop, ?_⟩
  cases hend : blockEnd [o] [c] t start with
  | ok stop =>
    obtain ⟨i, hi, hstop⟩ := (blockEnd_eq_ok_iff h).1 hend
    exact iff_of_false nofun (not_not_intro ⟨i, stop, hi, hstop⟩)
  | error f =>
    refine iff_of_true ⟨f, rfl, family_of_blockEnd hend⟩ ?_
    rintro ⟨i, stop, hi, hstop⟩
    rw [(blockEnd_eq_ok_iff h).2 ⟨i, hi, hstop⟩] at hend
    cases hend

/-- A block with another one in it, between brackets that do not belong to it. -/
theorem blockEnd_outcome_nested : '{' ≠ '}' ∧
    (∃ i, IsLeast (places '{' "\x7d\x7ba\x7b\x7d\x7d\x7d".toList 1) i ∧
      IsLeast (evenEnds '{' '}' "\x7d\x7ba\x7b\x7d\x7d\x7d".toList i) 6) ∧
    ¬ ∃ i stop, IsLeast (places '{' "\x7d\x7ba\x7b\x7d\x7d\x7d".toList 4) i ∧
      IsLeast (evenEnds '{' '}' "\x7d\x7ba\x7b\x7d\x7d\x7d".toList i) stop :=
  ⟨by decide, ((blockEnd_outcome (by decide) _ 1).1 6).1 rfl,
    (blockEnd_outcome (by decide) _ 4).2.2.1 ⟨_, rfl, rfl⟩⟩

end ShaderLink.Text
