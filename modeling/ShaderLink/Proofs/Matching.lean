import Mathlib.Data.List.TakeWhile
import ShaderLink.Pattern.Outcomes

/-!
# The texts that a pattern takes

`Pattern.Accepts` says which texts a pattern takes, whatever stands around them.  For a pattern that
looks at nothing else (`Pattern.isPlain`) these are the texts between a cursor and its outcomes
(`exists_of_mem_outcomes`, `exists_mem_outcomes`).  Whether a match goes through then depends on the
text alone and not on what is remembered (`isSome_run_iff`, `blind_run`).  What is remembered does
depend on the order of the attempts; runs of characters are taken as a whole if nothing is accepted
inside of them (`run_chars_of_rejects`).
-/

namespace ShaderLink

/-! ## Cursors -/

namespace Cursor

/-- The cursor behind a text that comes next. -/
def after (k : Cursor) (u : Text) : Cursor :=
  { k with
    before := u.getLast?.or k.before
    rest := k.rest.drop u.length
    left := k.left - u.length }

/-- The same place, with other spans remembered. -/
def withGroups (k : Cursor) (gs : List (Nat × Span)) : Cursor := { k with groups := gs }

/-- The number of characters that follow is right. -/
def Counts (k : Cursor) : Prop := k.left = k.rest.length

variable {k : Cursor} {u v t : Text} {gs gs' : List (Nat × Span)}

@[simp] theorem rest_after (k : Cursor) (u : Text) : (k.after u).rest = k.rest.drop u.length := rfl

@[simp] theorem left_after (k : Cursor) (u : Text) : (k.after u).left = k.left - u.length := rfl

@[simp] theorem groups_after (k : Cursor) (u : Text) : (k.after u).groups = k.groups := rfl

@[simp] theorem rest_withGroups : (k.withGroups gs).rest = k.rest := rfl

@[simp] theorem left_withGroups : (k.withGroups gs).left = k.left := rfl

@[simp] theorem groups_withGroups : (k.withGroups gs).groups = gs := rfl

@[simp] theorem withGroups_withGroups : (k.withGroups gs).withGroups gs' = k.withGroups gs' := rfl

@[simp] theorem withGroups_groups (k : Cursor) : k.withGroups k.groups = k := rfl

@[simp] theorem after_withGroups : (k.withGroups gs).after u = (k.after u).withGroups gs := rfl

@[simp] theorem after_nil (k : Cursor) : k.after [] = k := rfl

theorem remember_eq (k : Cursor) (n : Nat) (s : Span) :
    k.remember n s = k.withGroups ((n, s) :: k.groups) := rfl

theorem next_eq_after {c : Char} (h : k.rest = c :: t) : k.next c t = k.after [c] := by
  unfold next after
  rw [h]
  rfl

theorem after_after (k : Cursor) (u v : Text) : (k.after u).after v = k.after (u ++ v) := by
  unfold after
  simp only [List.getLast?_append, Option.or_assoc, List.drop_drop, List.length_append,
    Nat.sub_sub]

theorem after_next {c : Char} (h : k.rest = c :: t) (u : Text) :
    (k.next c t).after u = k.after (c :: u) := by
  rw [next_eq_after h, after_after]
  rfl

theorem rest_after_of_eq (h : k.rest = u ++ t) : (k.after u).rest = t := by
  rw [rest_after, h, List.drop_left]

theorem Counts.after (h : k.Counts) (u : Text) : (k.after u).Counts := by
  unfold Counts at *
  rw [left_after, rest_after, List.length_drop, h]

theorem Counts.withGroups (h : k.Counts) (gs : List (Nat × Span)) : (k.withGroups gs).Counts := h

/-- The text between a cursor and one behind the text that comes next. -/
theorem text_upTo_after (h : k.Counts) (hu : k.rest = u ++ t) :
    (k.upTo ((k.after u).withGroups gs)).text = u := by
  unfold Counts at h
  simp [upTo, Span.text, Cursor.after, h, hu]

/-- The text that a match takes behind another one. -/
theorem text_upTo_after_after (h : k.Counts) (hu : k.rest = u ++ v ++ t) :
    (((k.after u).withGroups gs).upTo ((k.after (u ++ v)).withGroups gs')).text = v := by
  have hrest : (k.after u).rest = v ++ t := rest_after_of_eq (by rw [hu, List.append_assoc])
  rw [← after_after]
  exact text_upTo_after (h.after u) hrest

theorem text_upTo_begins (hu : k.rest = u ++ t) :
    (k.upTo ((k.after u).withGroups gs)).text <+: u := by
  have hle : k.left - (k.left - u.length) ≤ u.length := by omega
  show k.rest.take (k.left - (k.left - u.length)) <+: u
  rw [hu, List.take_append_of_le_length hle]
  exact List.take_prefix _ u

end Cursor

namespace Pattern

open Cursor

variable {p q : Pattern} {test : Char → Bool} {done : Cursor → Option Cursor} {k k' : Cursor}
  {u v t : Text}

/-! ## Accepted texts -/

/-- The pattern takes the text, whatever stands around it.  Parts that look at what stands around
take nothing. -/
def Accepts : Pattern → Text → Prop
  | empty, u => u = []
  | one test, u => ∃ c, test c = true ∧ u = [c]
  | chars test, u => ∀ c ∈ u, test c = true
  | seq p q, u => ∃ v w, p.Accepts v ∧ q.Accepts w ∧ u = v ++ w
  | either p q, u => p.Accepts u ∨ q.Accepts u
  | star _ p, u => ∃ vs : List Text, (∀ v ∈ vs, v ≠ [] ∧ p.Accepts v) ∧ u = vs.flatten
  | group _ p, u => p.Accepts u
  | _, _ => False

/-- The pattern looks only at the text it takes, and numbers what it remembers from one on. -/
def isPlain : Pattern → Bool
  | empty | one _ | chars _ => true
  | seq p q | either p q => p.isPlain && q.isPlain
  | star _ p => p.isPlain
  | group n p => n != 0 && p.isPlain
  | _ => false

@[simp] theorem accepts_append :
    (p ++ q).Accepts u ↔ ∃ v w, p.Accepts v ∧ q.Accepts w ∧ u = v ++ w := Iff.rfl

@[simp] theorem accepts_seq : (seq p q).Accepts u ↔ ∃ v w, p.Accepts v ∧ q.Accepts w ∧ u = v ++ w :=
  Iff.rfl

@[simp] theorem accepts_either : (either p q).Accepts u ↔ p.Accepts u ∨ q.Accepts u := Iff.rfl

@[simp] theorem accepts_optional : (optional p).Accepts u ↔ p.Accepts u ∨ u = [] := Iff.rfl

@[simp] theorem accepts_chars : (chars test).Accepts u ↔ ∀ c ∈ u, test c = true := Iff.rfl

@[simp] theorem accepts_one : (one test).Accepts u ↔ ∃ c, test c = true ∧ u = [c] := Iff.rfl

@[simp] theorem accepts_lit {c : Char} : (lit c).Accepts u ↔ u = [c] := by
  simp [lit]

@[simp] theorem accepts_exactly {w : Text} : (exactly w).Accepts u ↔ u = w := by
  induction w generalizing u with
  | nil => exact Iff.rfl
  | cons c w ih =>
    show (lit c ++ exactly w).Accepts u ↔ _
    simp [ih]

@[simp] theorem accepts_phrase {s : String} : (phrase s).Accepts u ↔ u = s.toList :=
  accepts_exactly

theorem accepts_star_one {greedy : Bool} :
    (star greedy (one test)).Accepts u ↔ ∀ c ∈ u, test c = true := by
  constructor
  · rintro ⟨vs, hvs, rfl⟩ c hc
    obtain ⟨v, hv, hc⟩ := List.mem_flatten.1 hc
    obtain ⟨d, hd, rfl⟩ := (hvs v hv).2
    rw [List.mem_singleton] at hc
    exact hc ▸ hd
  · intro h
    refine ⟨u.map fun c => [c], ?_, ?_⟩
    · intro v hv
      obtain ⟨c, hc, rfl⟩ := List.mem_map.1 hv
      exact ⟨List.cons_ne_nil c [], c, h c hc, rfl⟩
    · induction u with
      | nil => rfl
      | cons c u ih => simp [← ih fun d hd => h d (List.mem_cons_of_mem c hd)]

theorem accepts_many1_one :
    (many1 (one test)).Accepts u ↔ u ≠ [] ∧ ∀ c ∈ u, test c = true := by
  show (one test ++ chars test).Accepts u ↔ _
  simp only [accepts_append, accepts_one, accepts_chars]
  constructor
  · rintro ⟨_, w, ⟨c, hc, rfl⟩, hw, rfl⟩
    exact ⟨List.cons_ne_nil c w, List.forall_mem_cons.2 ⟨hc, hw⟩⟩
  · rintro ⟨hne, h⟩
    obtain ⟨c, w, rfl⟩ := List.exists_cons_of_ne_nil hne
    rw [List.forall_mem_cons] at h
    exact ⟨[c], w, ⟨c, h.1, rfl⟩, h.2, rfl⟩

theorem accepts_few1_one :
    (few1 (one test)).Accepts u ↔ u ≠ [] ∧ ∀ c ∈ u, test c = true := by
  rw [← accepts_many1_one]
  show (one test ++ star false (one test)).Accepts u ↔ (one test ++ chars test).Accepts u
  simp only [accepts_append, accepts_star_one, accepts_chars]

/-! ## Outcomes -/

theorem mem_stops {ks : List Cursor} (hk : k.rest = t) :
    k' ∈ k.stops test t ks ↔ k' ∈ ks ∨ ∃ u, u <+: t.takeWhile test ∧ k' = k.after u := by
  induction t generalizing k ks with
  | nil => simp [stops, or_comm]
  | cons c t ih =>
    unfold stops
    by_cases hc : test c = true
    · rw [if_pos hc, ih (k := k.next c t) rfl, List.takeWhile_cons_of_pos hc, List.mem_cons]
      simp only [next_eq_after hk, after_after, List.cons_append, List.nil_append]
      constructor
      · rintro ((rfl | h) | ⟨u, hu, rfl⟩)
        · exact Or.inr ⟨[], List.nil_prefix, rfl⟩
        · exact Or.inl h
        · exact Or.inr ⟨c :: u, (List.prefix_cons_inj c).2 hu, rfl⟩
      · rintro (h | ⟨u, hu, rfl⟩)
        · exact Or.inl (Or.inr h)
        · cases u with
          | nil => exact Or.inl (Or.inl rfl)
          | cons d u =>
            have h := List.cons_prefix_cons.1 hu
            exact Or.inr ⟨u, h.2, by rw [h.1]⟩
    · rw [if_neg hc, List.takeWhile_cons_of_neg hc]
      simp [List.prefix_nil, or_comm]

/-- The text is passed on the way to an outcome, and is one that the pattern accepts. -/
theorem exists_of_mem_outcomes (hp : p.isPlain = true) (h : k' ∈ p.outcomes k) :
    ∃ u t gs, p.Accepts u ∧ k.rest = u ++ t ∧ k' = (k.after u).withGroups gs ∧
      (p.groupCount = 0 → gs = k.groups) := by
  induction p generalizing k k' with
  | empty =>
    rw [outcomes, List.mem_singleton] at h
    exact ⟨[], k.rest, k.groups, rfl, rfl, h, fun _ => rfl⟩
  | one test =>
    unfold outcomes at h
    cases hk : k.rest with
    | nil => simp [hk] at h
    | cons c t =>
      by_cases hc : test c = true
      · simp only [hk, hc, if_true, List.mem_singleton] at h
        exact ⟨[c], t, k.groups, ⟨c, hc, rfl⟩, rfl, h.trans (next_eq_after hk), fun _ => rfl⟩
      · simp [hk, hc] at h
  | chars test =>
    obtain ⟨u, hu, rfl⟩ := ((mem_stops rfl).1 h).resolve_left List.not_mem_nil
    obtain ⟨t, ht⟩ := hu.trans (List.takeWhile_prefix test)
    exact ⟨u, t, k.groups, fun c hc => List.mem_takeWhile_imp (hu.subset hc), ht.symm, rfl,
      fun _ => rfl⟩
  | seq p q ihp ihq =>
    rw [isPlain, Bool.and_eq_true] at hp
    obtain ⟨k₁, hk₁, h⟩ := List.mem_flatMap.1 h
    obtain ⟨u, t, gs, hu, ht, rfl, hgs⟩ := ihp hp.1 hk₁
    obtain ⟨v, s, gs', hv, hs, rfl, hgs'⟩ := ihq hp.2 h
    refine ⟨u ++ v, s, gs', ⟨u, v, hu, hv, rfl⟩, ?_, ?_, fun hzero => ?_⟩
    · rw [rest_withGroups, rest_after_of_eq ht] at hs
      rw [ht, hs, List.append_assoc]
    · rw [after_withGroups, after_after, withGroups_withGroups]
    · rw [groupCount, Nat.max_eq_zero_iff] at hzero
      rw [hgs' hzero.2, groups_withGroups, hgs hzero.1]
  | either p q ihp ihq =>
    rw [isPlain, Bool.and_eq_true] at hp
    rcases List.mem_append.1 h with h | h
    · obtain ⟨u, t, gs, hu, ht, hk', hgs⟩ := ihp hp.1 h
      refine ⟨u, t, gs, Or.inl hu, ht, hk', fun hzero => hgs ?_⟩
      rw [groupCount, Nat.max_eq_zero_iff] at hzero
      exact hzero.1
    · obtain ⟨u, t, gs, hu, ht, hk', hgs⟩ := ihq hp.2 h
      refine ⟨u, t, gs, Or.inr hu, ht, hk', fun hzero => hgs ?_⟩
      rw [groupCount, Nat.max_eq_zero_iff] at hzero
      exact hzero.2
  | star greedy p ih =>
    -- the number of rounds that are left plays no part
    have hrounds : ∀ fuel k, k' ∈ roundOutcomes p.outcomes greedy fuel k →
        ∃ u t gs, (star greedy p).Accepts u ∧ k.rest = u ++ t ∧ k' = (k.after u).withGroups gs ∧
          (p.groupCount = 0 → gs = k.groups) := by
      intro fuel
      induction fuel with
      | zero =>
        intro k h
        rw [roundOutcomes, List.mem_singleton] at h
        exact ⟨[], k.rest, k.groups, ⟨[], List.forall_mem_nil _, rfl⟩, rfl, h, fun _ => rfl⟩
      | succ fuel ihf =>
        intro k h
        rcases mem_roundOutcomes_succ.1 h with rfl | ⟨k₁, hk₁, hlt, h⟩
        · exact ⟨[], k'.rest, k'.groups, ⟨[], List.forall_mem_nil _, rfl⟩, rfl, rfl, fun _ => rfl⟩
        · obtain ⟨u, t, gs, hu, ht, rfl, hgs⟩ := ih hp hk₁
          obtain ⟨v, s, gs', ⟨vs, hvs, hv⟩, hs, rfl, hgs'⟩ := ihf _ h
          have hne : u ≠ [] := by
            rintro rfl
            exact Nat.lt_irrefl _ hlt
          refine ⟨u ++ v, s, gs', ⟨u :: vs, ?_, ?_⟩, ?_, ?_, fun hzero => ?_⟩
          · exact List.forall_mem_cons.2 ⟨⟨hne, hu⟩, hvs⟩
          · rw [hv, List.flatten_cons]
          · rw [rest_withGroups, rest_after_of_eq ht] at hs
            rw [ht, hs, List.append_assoc]
          · rw [after_withGroups, after_after, withGroups_withGroups]
          · rw [hgs' hzero, groups_withGroups, hgs hzero]
    exact hrounds k.left k h
  | group n p ih =>
    rw [isPlain, Bool.and_eq_true, bne_iff_ne] at hp
    obtain ⟨k₁, hk₁, rfl⟩ := List.mem_map.1 h
    obtain ⟨u, t, gs, hu, ht, rfl, hgs⟩ := ih hp.2 hk₁
    refine ⟨u, t, _, hu, ht, remember_eq .., fun hzero => ?_⟩
    rw [groupCount, Nat.max_eq_zero_iff] at hzero
    exact absurd hzero.1 hp.1
  | again | textStart | lineStart | textEnd | lineEnd | wordEdge | notAhead => cases hp

/-- There is an outcome behind each text that comes next and that the pattern accepts. -/
theorem exists_mem_outcomes (hu : p.Accepts u) (ht : k.rest = u ++ t) (hk : k.Counts) :
    ∃ gs, (k.after u).withGroups gs ∈ p.outcomes k := by
  induction p generalizing k u t with
  | empty =>
    cases hu
    exact ⟨k.groups, List.mem_singleton.2 rfl⟩
  | one test =>
    obtain ⟨c, hc, rfl⟩ := hu
    refine ⟨k.groups, ?_⟩
    unfold outcomes
    rw [ht]
    simp only [List.cons_append, List.nil_append, hc, if_true, List.mem_singleton]
    exact (next_eq_after ht).symm
  | chars test =>
    refine ⟨k.groups, (mem_stops rfl).2 (Or.inr ⟨u, ?_, rfl⟩)⟩
    rw [ht, List.takeWhile_append_of_pos hu]
    exact List.prefix_append u _
  | seq p q ihp ihq =>
    obtain ⟨v, w, hv, hw, rfl⟩ := hu
    rw [List.append_assoc] at ht
    obtain ⟨gs, hgs⟩ := ihp hv ht hk
    obtain ⟨gs', hgs'⟩ := ihq (k := (k.after v).withGroups gs) hw (rest_after_of_eq ht)
      ((hk.after v).withGroups gs)
    refine ⟨gs', List.mem_flatMap.2 ⟨_, hgs, ?_⟩⟩
    rwa [after_withGroups, after_after, withGroups_withGroups] at hgs'
  | either p q ihp ihq =>
    rcases hu with hu | hu
    · obtain ⟨gs, hgs⟩ := ihp hu ht hk
      exact ⟨gs, List.mem_append_left _ hgs⟩
    · obtain ⟨gs, hgs⟩ := ihq hu ht hk
      exact ⟨gs, List.mem_append_right _ hgs⟩
  | star greedy p ih =>
    obtain ⟨vs, hvs, rfl⟩ := hu
    have hrounds : ∀ fuel k, vs.flatten.length ≤ fuel → k.rest = vs.flatten ++ t → k.Counts →
        ∃ gs, (k.after vs.flatten).withGroups gs ∈ roundOutcomes p.outcomes greedy fuel k := by
      clear ht hk
      induction vs with
      | nil =>
        intro fuel k _ _ _
        cases fuel with
        | zero => exact ⟨k.groups, List.mem_singleton.2 rfl⟩
        | succ fuel => exact ⟨k.groups, mem_roundOutcomes_succ.2 (Or.inl rfl)⟩
      | cons v vs ihv =>
        intro fuel k hfuel ht hk
        rw [List.forall_mem_cons] at hvs
        rw [List.flatten_cons, List.append_assoc] at ht
        have hpos : 0 < v.length := List.length_pos_iff.2 hvs.1.1
        have hleft : 0 < k.left := by
          rw [hk, ht, List.length_append]
          omega
        rw [List.flatten_cons, List.length_append] at hfuel
        obtain ⟨fuel, rfl⟩ : ∃ n, fuel = n + 1 := ⟨fuel - 1, by omega⟩
        obtain ⟨gs, hgs⟩ := ih hvs.1.2 ht hk
        obtain ⟨gs', hgs'⟩ := ihv hvs.2 fuel ((k.after v).withGroups gs) (by omega)
          (rest_after_of_eq ht) ((hk.after v).withGroups gs)
        refine ⟨gs', mem_roundOutcomes_succ.2 (Or.inr ⟨_, hgs, ?_, ?_⟩)⟩
        · rw [left_withGroups, left_after]
          omega
        · rwa [after_withGroups, after_after, withGroups_withGroups] at hgs'
    refine hrounds k.left k ?_ ht hk
    rw [hk, ht, List.length_append]
    exact Nat.le_add_right _ _
  | group n p ih =>
    obtain ⟨gs, hgs⟩ := ih hu ht hk
    exact ⟨_, List.mem_map.2 ⟨_, hgs, remember_eq ..⟩⟩
  | again | textStart | lineStart | textEnd | lineEnd | wordEdge | notAhead => cases hu

/-! ## What is accepted behind a pattern -/

/-- A pattern that remembers nothing hands the cursor behind an accepted text on. -/
theorem exists_of_run (hp : p.isPlain = true) (hzero : p.groupCount = 0)
    (h : p.run k done = some k') :
    ∃ u t, p.Accepts u ∧ k.rest = u ++ t ∧ done (k.after u) = some k' := by
  rw [run_eq_findSome?] at h
  obtain ⟨k₁, hk₁, hdone⟩ := List.exists_of_findSome?_eq_some h
  obtain ⟨u, t, gs, hu, ht, rfl, hgs⟩ := exists_of_mem_outcomes hp hk₁
  rw [hgs hzero] at hdone
  exact ⟨u, t, hu, ht, hdone⟩

/-- The same for a match that goes on behind a text. -/
theorem exists_of_run_after {gs : List (Nat × Span)} (hp : p.isPlain = true)
    (hzero : p.groupCount = 0) (ht : k.rest = u ++ t)
    (h : p.run ((k.after u).withGroups gs) done = some k') :
    ∃ v s, p.Accepts v ∧ k.rest = u ++ v ++ s ∧
      done ((k.after (u ++ v)).withGroups gs) = some k' := by
  obtain ⟨v, s, hv, hs, h⟩ := exists_of_run hp hzero h
  rw [rest_withGroups, rest_after_of_eq ht] at hs
  rw [after_withGroups, after_after] at h
  exact ⟨v, s, hv, by rw [ht, hs, List.append_assoc], h⟩

/-- Whether a place is accepted does not depend on what is remembered there. -/
def Blind (done : Cursor → Option Cursor) : Prop :=
  ∀ k gs, k.Counts → ((done (k.withGroups gs)).isSome ↔ (done k).isSome)

/-- A match goes through if and only if the place behind some accepted text is accepted. -/
theorem isSome_run_iff (hp : p.isPlain = true) (hdone : Blind done) (hk : k.Counts) :
    (p.run k done).isSome ↔
      ∃ u t, p.Accepts u ∧ k.rest = u ++ t ∧ (done (k.after u)).isSome := by
  rw [run_eq_findSome?, List.findSome?_isSome_iff]
  constructor
  · rintro ⟨k₁, hk₁, hsome⟩
    obtain ⟨u, t, gs, hu, ht, rfl, -⟩ := exists_of_mem_outcomes hp hk₁
    exact ⟨u, t, hu, ht, (hdone _ gs (hk.after u)).1 hsome⟩
  · rintro ⟨u, t, hu, ht, hsome⟩
    obtain ⟨gs, hgs⟩ := exists_mem_outcomes hu ht hk
    exact ⟨_, hgs, (hdone _ gs (hk.after u)).2 hsome⟩

theorem blind_some (f : Cursor → Cursor) : Blind fun k => some (f k) :=
  fun _ _ _ => Iff.rfl

theorem blind_run (hp : p.isPlain = true) (hdone : Blind done) : Blind fun k => p.run k done := by
  intro k gs hk
  rw [isSome_run_iff hp hdone hk, isSome_run_iff hp hdone (hk.withGroups gs)]
  simp only [rest_withGroups, after_withGroups]
  refine exists₂_congr fun u t => and_congr_right fun _ => and_congr_right fun _ => ?_
  exact hdone _ gs (hk.after u)

theorem blind_remember (h : Blind done) (k : Cursor) (n : Nat) :
    Blind fun k' => done (k'.remember n (k.upTo k')) := by
  intro k' gs hk'
  exact (h k' _ hk').trans (h k' _ hk').symm

theorem run_notAhead_eq_some_iff :
    (notAhead p).run k done = some k' ↔ p.run k some = none ∧ done k = some k' := by
  show (if (p.run k some).isNone then done k else none) = some k' ↔ _
  cases p.run k some <;> simp

theorem blind_notAhead (hp : p.isPlain = true) (hdone : Blind done) :
    Blind fun k => (notAhead p).run k done := by
  intro k gs hk
  have hahead := blind_run hp (blind_some id) k gs hk
  have hnone : (p.run (k.withGroups gs) some).isNone = (p.run k some).isNone := by
    rw [← Option.not_isSome, ← Option.not_isSome]
    exact congrArg (!·) (Bool.eq_iff_iff.2 hahead)
  show (if (p.run (k.withGroups gs) some).isNone then done (k.withGroups gs) else none).isSome ↔
    (if (p.run k some).isNone then done k else none).isSome
  rw [hnone]
  by_cases h : (p.run k some).isNone = true
  · rw [if_pos h, if_pos h]
    exact hdone k gs hk
  · rw [if_neg h, if_neg h]

/-- What a pattern has taken it takes when nothing else is there, if the end of a text is
accepted. -/
theorem isSome_run_alone {cond : Cursor → Option Cursor} (hp : p.isPlain = true)
    (hblind : Blind cond) (hcond : ∀ k k', cond k = some k' → k' = k)
    (hend : ∀ k : Cursor, k.rest = [] → (cond k).isSome) (hk : k.Counts)
    (h : p.run k cond = some k') :
    (p.run ⟨none, (k.upTo k').text, (k.upTo k').text.length, []⟩ cond).isSome := by
  rw [run_eq_findSome?] at h
  obtain ⟨k₁, hk₁, h⟩ := List.exists_of_findSome?_eq_some h
  obtain ⟨u, t, gs, hu, ht, rfl, -⟩ := exists_of_mem_outcomes hp hk₁
  rw [hcond _ _ h, text_upTo_after hk ht]
  have hcount : Cursor.Counts ⟨none, u, u.length, []⟩ := rfl
  have hrest : u = u ++ [] := (List.append_nil u).symm
  exact (isSome_run_iff hp hblind hcount).2 ⟨u, [], hu, hrest, hend _ (rest_after_of_eq hrest)⟩

/-! ## Runs of characters -/

/-- Places where a character comes next that passes the test are not accepted. -/
def Rejects (test : Char → Bool) (done : Cursor → Option Cursor) : Prop :=
  ∀ k c t, k.rest = c :: t → test c = true → done k = none

/-- Nothing is accepted in front of such a character if the pattern takes only texts that begin
with another one. -/
theorem rejects_run (hp : p.isPlain = true)
    (h : ∀ u, p.Accepts u → ∃ c v, u = c :: v ∧ test c = false) :
    Rejects test fun k => p.run k done := by
  intro k c t hk hc
  show p.run k done = none
  rw [run_eq_findSome?, List.findSome?_eq_none_iff]
  intro k' hk'
  obtain ⟨u, s, gs, hu, hs, -, -⟩ := exists_of_mem_outcomes hp hk'
  obtain ⟨d, v, rfl, hd⟩ := h u hu
  rw [hk, List.cons_append] at hs
  rw [(List.cons.inj hs).1, hd] at hc
  cases hc

theorem run_one {c : Char} {t : Text} (hk : k.rest = c :: t) (hc : test c = true) :
    (one test).run k done = done (k.after [c]) := by
  rw [run, hk, ← next_eq_after hk]
  exact if_pos hc

theorem run_lit_of_ne {c : Char} (h : ∀ t, k.rest ≠ c :: t) : (lit c).run k done = none := by
  rw [lit, run]
  cases hk : k.rest with
  | nil => rfl
  | cons d t =>
    refine if_neg fun hd => h t ?_
    rw [hk, beq_iff_eq.1 hd]

theorem head?_stops {ks : List Cursor} (hk : k.rest = t) :
    (k.stops test t ks).head? = some (k.after (t.takeWhile test)) := by
  induction t generalizing k ks with
  | nil => rfl
  | cons c t ih =>
    unfold stops
    by_cases hc : test c = true
    · rw [if_pos hc, ih rfl, List.takeWhile_cons_of_pos hc, next_eq_after hk, after_after]
      rfl
    · rw [if_neg hc, List.takeWhile_cons_of_neg hc]
      rfl

/-- A run is taken as a whole if that is accepted whenever a part of it is. -/
theorem run_chars_eq (h : ∀ u, u <+: k.rest.takeWhile test → (done (k.after u)).isSome →
    (done (k.after (k.rest.takeWhile test))).isSome) :
    (chars test).run k done = done (k.after (k.rest.takeWhile test)) := by
  show (k.stops test k.rest []).findSome? done = _
  obtain ⟨ks, hks⟩ : ∃ ks, k.stops test k.rest [] = k.after (k.rest.takeWhile test) :: ks :=
    List.head?_eq_some_iff.1 (head?_stops rfl)
  rw [hks, List.findSome?_cons]
  cases hdone : done (k.after (k.rest.takeWhile test)) with
  | some r => rfl
  | none =>
    refine List.findSome?_eq_none_iff.2 fun k' hk' => ?_
    have hmem : k' ∈ k.stops test k.rest [] := hks ▸ List.mem_cons_of_mem _ hk'
    obtain ⟨u, hu, rfl⟩ := ((mem_stops rfl).1 hmem).resolve_left List.not_mem_nil
    have hnone := mt (h u hu)
    rw [hdone] at hnone
    simpa using hnone

/-- A run is taken as a whole if nothing is accepted inside of it. -/
theorem run_chars_of_rejects (h : Rejects test done) (k : Cursor) :
    (chars test).run k done = done (k.after (k.rest.takeWhile test)) := by
  refine run_chars_eq fun u hu hsome => ?_
  obtain ⟨v, hv⟩ := hu
  cases v with
  | nil =>
    rw [List.append_nil] at hv
    exact hv ▸ hsome
  | cons c v =>
    have hc : test c = true := List.mem_takeWhile_imp (hv ▸ by simp : c ∈ k.rest.takeWhile test)
    have hsplit : k.rest = u ++ c :: (v ++ k.rest.dropWhile test) := by
      rw [← List.cons_append, ← List.append_assoc, hv, List.takeWhile_append_dropWhile]
    rw [h _ _ _ (rest_after_of_eq hsplit) hc] at hsome
    cases hsome

theorem findSome?_stops_eq {ks : List Cursor} (hk : k.rest = t)
    (hfail : ∀ u, u <+: t.takeWhile test → done (k.after u) = none) :
    (k.stops test t ks).findSome? done = ks.findSome? done := by
  have hhere : done k = none := hfail [] List.nil_prefix
  induction t generalizing k ks with
  | nil => rw [stops, List.findSome?_cons, hhere]
  | cons c t ih =>
    unfold stops
    by_cases hc : test c = true
    · rw [List.takeWhile_cons_of_pos hc] at hfail
      have hnext : ∀ u, u <+: t.takeWhile test → done ((k.next c t).after u) = none := by
        intro u hu
        rw [after_next hk]
        exact hfail _ ((List.prefix_cons_inj c).2 hu)
      rw [if_pos hc, ih rfl hnext (hnext [] List.nil_prefix), List.findSome?_cons, hhere]
    · rw [if_neg hc, List.findSome?_cons, hhere]

/-- A run is taken up to the last place that is accepted. -/
theorem run_chars_of_last (ht : k.rest = v ++ t) (hv : ∀ c ∈ v, test c = true)
    (hfail : ∀ u, u ≠ [] → u <+: t.takeWhile test → done (k.after (v ++ u)) = none)
    (hdone : (done (k.after v)).isSome) : (chars test).run k done = done (k.after v) := by
  have hstops : ∀ ks, (k.stops test (v ++ t) ks).findSome? done = done (k.after v) := by
    induction v generalizing k with
    | nil =>
      intro ks
      rw [after_nil] at hdone ⊢
      obtain ⟨r, hr⟩ := Option.isSome_iff_exists.1 hdone
      have hcons : (k :: ks).findSome? done = done k := by rw [List.findSome?_cons, hr]
      rw [List.nil_append] at ht ⊢
      cases t with
      | nil => exact hcons
      | cons c t =>
        unfold stops
        by_cases hc : test c = true
        · rw [List.takeWhile_cons_of_pos hc] at hfail
          have hnext : (k.next c t).rest = t := rfl
          rw [if_pos hc, findSome?_stops_eq hnext fun u hu => ?_, hcons]
          rw [after_next ht]
          exact hfail (c :: u) (List.cons_ne_nil c u) ((List.prefix_cons_inj c).2 hu)
        · rw [if_neg hc, hcons]
    | cons c v ih =>
      intro ks
      obtain ⟨hc, hv⟩ := List.forall_mem_cons.1 hv
      have ht : k.rest = c :: (v ++ t) := ht
      have hafter := after_next ht
      rw [List.cons_append]
      unfold stops
      rw [if_pos hc, ih rfl hv (fun u hne hu => (hafter _).symm ▸ hfail u hne hu)
        ((hafter v).symm ▸ hdone), hafter]
  show (k.stops test k.rest []).findSome? done = _
  rw [ht, hstops]

end Pattern

end ShaderLink
