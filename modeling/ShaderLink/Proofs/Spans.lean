import ShaderLink.Proofs.Captures

/-!
# Where matches stand

A match goes forward in the text, and with most patterns by at least one character
(`Pattern.consumes`).  Where what is found is never empty (`Pattern.NeverEmpty`), matches found one
after the other are parts of the text that stand one behind the other
(`placed_sequence_of_neverEmpty`).
-/

namespace ShaderLink

open Cursor

/-! ## Going forward -/

namespace Pattern

/-- A match of the pattern takes at least one character. -/
def consumes : Pattern → Bool
  | one _ => true
  | seq p q => p.consumes || q.consumes
  | either p q => p.consumes && q.consumes
  | group _ p => p.consumes
  | _ => false

/-- The second cursor is behind the first one, if something is to be taken. -/
structure Forward (moves : Bool) (k k' : Cursor) : Prop where
  counts : k'.Counts
  le : k'.left ≤ k.left
  lt : moves = true → k'.left < k.left

variable {p : Pattern} {k k' k'' : Cursor} {moves moves' : Bool}

theorem Forward.refl (hk : k.Counts) : Forward false k k := ⟨hk, le_rfl, nofun⟩

theorem Forward.trans (h : Forward moves k k') (h' : Forward moves' k' k'') :
    Forward (moves || moves') k k'' := by
  refine ⟨h'.counts, h'.le.trans h.le, fun hmoves => ?_⟩
  rcases Bool.or_eq_true_iff.1 hmoves with hm | hm
  · exact h'.le.trans_lt (h.lt hm)
  · exact (h'.lt hm).trans_le h.le

theorem Forward.weaken (h : Forward moves k k') (hmoves : moves' = true → moves = true) :
    Forward moves' k k' :=
  ⟨h.counts, h.le, fun hm => h.lt (hmoves hm)⟩

theorem forward_next {c : Char} {t : Text} (hk : k.Counts) (ht : k.rest = c :: t) :
    Forward true k (k.next c t) := by
  have hleft : k.left = t.length + 1 := by rw [hk, ht, List.length_cons]
  refine ⟨?_, Nat.sub_le _ _, fun _ => ?_⟩
  · show k.left - 1 = t.length
    omega
  · show k.left - 1 < k.left
    omega

theorem forward_past {u : Text} (hk : k.Counts) (h : k.past u = some k') :
    Forward false k k' := by
  induction u generalizing k with
  | nil =>
    cases h
    exact Forward.refl hk
  | cons c u ih =>
    unfold past at h
    split at h
    · cases h
    · rename_i d r hr
      split at h
      · have hnext := forward_next hk hr
        exact (hnext.trans (ih hnext.counts h)).weaken nofun
      · cases h

theorem forward_stops {test : Char → Bool} (hk : k.Counts)
    (h : k' ∈ k.stops test k.rest []) : Forward false k k' := by
  obtain ⟨u, -, rfl⟩ := ((mem_stops rfl).1 h).resolve_left List.not_mem_nil
  exact ⟨hk.after u, Nat.sub_le _ _, nofun⟩

theorem forward_ite {b : Bool} (hk : k.Counts) (h : k' ∈ if b then [k] else []) :
    Forward false k k' := by
  split at h
  · obtain rfl := List.mem_singleton.1 h
    exact Forward.refl hk
  · cases h

theorem forward_rounds {step : Cursor → List Cursor}
    (hstep : ∀ k k', k.Counts → k' ∈ step k → Forward false k k') {greedy : Bool} {fuel : Nat}
    (hk : k.Counts) (h : k' ∈ roundOutcomes step greedy fuel k) : Forward false k k' := by
  induction fuel generalizing k with
  | zero =>
    obtain rfl := List.mem_singleton.1 h
    exact Forward.refl hk
  | succ fuel ih =>
    rcases mem_roundOutcomes_succ.1 h with rfl | ⟨k₁, hk₁, -, h⟩
    · exact Forward.refl hk
    · have hfirst := hstep k k₁ hk hk₁
      exact hfirst.trans (ih hfirst.counts h)

theorem forward_outcomes (hk : k.Counts) (h : k' ∈ p.outcomes k) :
    Forward p.consumes k k' := by
  induction p generalizing k k' with
  | empty =>
    obtain rfl := List.mem_singleton.1 h
    exact Forward.refl hk
  | one test =>
    unfold outcomes at h
    split at h
    · cases h
    · rename_i c t ht
      split at h
      · rw [List.mem_singleton] at h
        exact h ▸ forward_next hk ht
      · cases h
  | chars test => exact forward_stops hk h
  | seq p q ihp ihq =>
    obtain ⟨k₁, hk₁, h⟩ := List.mem_flatMap.1 h
    have hfirst := ihp hk hk₁
    exact hfirst.trans (ihq hfirst.counts h)
  | either p q ihp ihq =>
    rcases List.mem_append.1 h with h | h
    · exact (ihp hk h).weaken fun hm => (Bool.and_eq_true_iff.1 hm).1
    · exact (ihq hk h).weaken fun hm => (Bool.and_eq_true_iff.1 hm).2
  | star greedy p ih =>
    exact forward_rounds (fun k k' hk h => (ih hk h).weaken nofun) hk h
  | group n p ih =>
    obtain ⟨k₁, hk₁, rfl⟩ := List.mem_map.1 h
    have hfirst := ih hk hk₁
    exact ⟨hfirst.counts, hfirst.le, hfirst.lt⟩
  | again n =>
    rw [outcomes, Option.mem_toList, Option.bind_eq_some_iff] at h
    obtain ⟨u, -, h⟩ := h
    exact forward_past hk h
  | textStart => exact forward_ite hk h
  | lineStart => exact forward_ite hk h
  | textEnd => exact forward_ite hk h
  | lineEnd => exact forward_ite hk h
  | wordEdge => exact forward_ite hk h
  | notAhead p ih => exact forward_ite hk h

theorem text_ne_nil_of_here (hp : p.consumes = true) {b : Option Char} {start : Nat} {t : Text}
    {m : Match} (h : p.here b start t.length t = some m) : m.text ≠ [] := by
  obtain ⟨k', hrun, -, htext, -⟩ := exists_run_of_here h
  rw [run_some_eq_head?] at hrun
  have hk : Cursor.Counts ⟨b, t, t.length, []⟩ := rfl
  have hlt : k'.left < t.length := (forward_outcomes hk (List.mem_of_mem_head? hrun)).lt hp
  intro hnil
  have hlen : (t.take (t.length - k'.left)).length = 0 :=
    congrArg List.length (htext.symm.trans hnil)
  rw [List.length_take] at hlen
  omega

/-- What is found with the pattern is never empty. -/
def NeverEmpty (p : Pattern) : Prop := ∀ t m, p.search t = some m → m.text ≠ []

theorem neverEmpty_of_consumes (hp : p.consumes = true) : p.NeverEmpty := by
  intro t m h
  obtain ⟨b, start, u, hhere⟩ := exists_here_of_search h
  exact text_ne_nil_of_here hp hhere

end Pattern

/-! ## Matches in a text -/

/-- The match takes a part of the text where it begins. -/
structure Match.LiesIn (t : Text) (m : Match) : Prop where
  start_le : m.start ≤ t.length
  isPrefix : m.text <+: t.drop m.start

/-- A match that is not empty ends behind the first character of the text. -/
theorem Match.max_stop_one {m : Match} (h : m.text ≠ []) : max m.stop 1 = m.stop := by
  have hpos : 0 < m.text.length := List.length_pos_iff.2 h
  unfold Match.stop
  omega

theorem Match.stop_shift (n : Nat) (m : Match) : (m.shift n).stop = n + m.stop := by
  unfold Match.stop Match.shift
  simp only
  omega

/-- The matches lie in the text, one behind the other from an offset on. -/
def Placed (t : Text) : Nat → List Match → Prop
  | _, [] => True
  | n, m :: ms => n ≤ m.start ∧ m.LiesIn t ∧ Placed t m.stop ms

namespace Match.LiesIn

variable {t : Text} {m : Match} (h : m.LiesIn t)
include h

theorem stop_le : m.stop ≤ t.length := by
  have hlen := h.isPrefix.length_le
  have hle := h.start_le
  rw [List.length_drop] at hlen
  unfold Match.stop
  omega

theorem getElem?_of_text {i : Nat} {c : Char} (hc : m.text[i]? = some c) :
    t[m.start + i]? = some c := by
  obtain ⟨u, hu⟩ := h.isPrefix
  have hi : i < m.text.length := (List.getElem?_eq_some_iff.1 hc).1
  rw [← List.getElem?_drop, ← hu, List.getElem?_append_left hi]
  exact hc

theorem shift (u : Text) : (m.shift u.length).LiesIn (u ++ t) := by
  refine ⟨?_, ?_⟩
  · show m.start + u.length ≤ (u ++ t).length
    rw [List.length_append]
    have := h.start_le
    omega
  · show m.text <+: (u ++ t).drop (m.start + u.length)
    rw [Nat.add_comm, ← List.drop_drop, List.drop_left]
    exact h.isPrefix

theorem slice_eq : (t.take m.stop).drop m.start = m.text := by
  have hlength : m.stop - m.start = m.text.length := Nat.add_sub_cancel_left ..
  rw [List.drop_take, hlength]
  exact (List.prefix_iff_eq_take.1 h.isPrefix).symm

end Match.LiesIn

theorem Match.start_le_stop (m : Match) : m.start ≤ m.stop := Nat.le_add_right ..

variable {p : Pattern} {t : Text} {m : Match}

theorem Placed.liesIn {n : Nat} {ms : List Match} (h : Placed t n ms) :
    ∀ m ∈ ms, m.LiesIn t := by
  induction ms generalizing n with
  | nil => exact List.forall_mem_nil _
  | cons m ms ih => exact List.forall_mem_cons.2 ⟨h.2.1, ih h.2.2⟩

theorem Placed.le_start {n : Nat} {ms : List Match} (h : Placed t n ms) :
    ∀ m ∈ ms, n ≤ m.start := by
  induction ms generalizing n with
  | nil => exact List.forall_mem_nil _
  | cons m ms ih =>
    refine List.forall_mem_cons.2 ⟨h.1, fun m' hm' => ?_⟩
    exact (h.1.trans m.start_le_stop).trans (ih h.2.2 m' hm')

/-- Each match begins where all before it have ended. -/
theorem Placed.pairwise {n : Nat} {ms : List Match} (h : Placed t n ms) :
    ms.Pairwise fun m m' => m.stop ≤ m'.start := by
  induction ms generalizing n with
  | nil => exact .nil
  | cons m ms ih => exact .cons h.2.2.le_start (ih h.2.2)

theorem exists_cut_of_search (h : p.search t = some m) :
    ∃ b u v, t = u ++ v ∧ p.here b u.length v.length v = some m := by
  obtain ⟨⟨-, hle⟩, hm, -⟩ := Pattern.firstFrom_of_search h
  have hlength : (t.take m.start).length = m.start := List.length_take_of_le hle
  refine ⟨(t.take m.start).getLast?, t.take m.start, t.drop m.start,
    (List.take_append_drop ..).symm, ?_⟩
  rw [hlength]
  exact hm

/-- What a search finds lies in the text. -/
theorem liesIn_of_search (h : p.search t = some m) : m.LiesIn t := by
  obtain ⟨⟨-, hle⟩, hm, -⟩ := Pattern.firstFrom_of_search h
  exact ⟨hle, Pattern.text_prefix_of_here hm⟩

/-- Matches found one after the other stand one behind the other in the text. -/
theorem placed_sequence_of_neverEmpty (hp : p.NeverEmpty) (t : Text) :
    Placed t 0 (p.sequence t) := by
  have hfrom : ∀ fuel (u v : Text), Placed (u ++ v) u.length (p.sequenceFrom fuel u.length v) := by
    intro fuel
    induction fuel with
    | zero => exact fun _ _ => trivial
    | succ fuel ih =>
      intro u v
      unfold Pattern.sequenceFrom
      cases hm : p.search v with
      | none => trivial
      | some m =>
        have hlies := liesIn_of_search hm
        refine ⟨Nat.le_add_left _ _, hlies.shift u, ?_⟩
        have hstop : (u ++ v.take m.stop).length = u.length + m.stop := by
          rw [List.length_append, List.length_take_of_le hlies.stop_le]
        have hrest := ih (u ++ v.take m.stop) (v.drop m.stop)
        rw [List.append_assoc, List.take_append_drop, hstop] at hrest
        simp only [Match.max_stop_one (hp v m hm), Match.stop_shift]
        exact hrest
  exact hfrom _ [] t

theorem placed_sequence (hp : p.consumes = true) (t : Text) : Placed t 0 (p.sequence t) :=
  placed_sequence_of_neverEmpty (Pattern.neverEmpty_of_consumes hp) t

/-! ## Blanking spans -/

namespace Text

variable {start stop n : Nat}

theorem getElem?_blankOut_inside (h : n < stop) (hs : start ≤ n) (hstop : stop ≤ t.length) :
    (t.blankOut start stop)[n]? = some ' ' := by
  have htake : (t.take start).length = start := List.length_take_of_le (by omega)
  rw [blankOut_natCast, List.append_assoc, List.getElem?_append_right (by omega), htake,
    List.getElem?_append_left (by rw [List.length_replicate]; omega),
    List.getElem?_replicate_of_lt (by omega)]

theorem getElem?_blankOut_outside (h : n < start ∨ stop ≤ n) (hs : start ≤ stop)
    (hstop : stop ≤ t.length) : (t.blankOut start stop)[n]? = t[n]? := by
  have htake : (t.take start).length = start := List.length_take_of_le (by omega)
  rw [blankOut_natCast, List.append_assoc]
  rcases h with h | h
  · rw [List.getElem?_append_left (by omega), List.getElem?_take_of_lt h]
  · rw [List.getElem?_append_right (by omega), htake,
      List.getElem?_append_right (by rw [List.length_replicate]; omega), List.length_replicate,
      List.getElem?_drop]
    congr 1
    omega

end Text

end ShaderLink
