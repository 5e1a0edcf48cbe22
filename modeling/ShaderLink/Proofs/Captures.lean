import ShaderLink.Proofs.FirstMatches
import ShaderLink.Proofs.Matching
import ShaderLink.Table

/-!
# What a match remembers

The text that a match remembers under a number is matched by a part of the pattern with that number
(`mem_groups_outcomes`).  What is found in a text begins at one of its places
(`exists_here_of_search`, `exists_here_of_sequence`).  So where the numbered part is an identifier,
the text found under the number is made of word characters: `isWord_of_search` and
`isWord_of_sequence`.
-/

namespace ShaderLink.Pattern

open Cursor

/-- The parts whose texts are remembered under a number. -/
def bodies (n : Nat) : Pattern → List Pattern
  | seq p q | either p q => bodies n p ++ bodies n q
  | star _ p => bodies n p
  | group m p => if m = n then p :: bodies n p else bodies n p
  | _ => []

/-- The span is matched by one of the patterns. -/
def MatchedBy (ps : List Pattern) (s : Span) : Prop :=
  ∃ p ∈ ps, ∃ k k', k' ∈ p.outcomes k ∧ s = k.upTo k'

theorem MatchedBy.mono {ps qs : List Pattern} {s : Span} (h : MatchedBy ps s)
    (hps : ∀ p ∈ ps, p ∈ qs) : MatchedBy qs s := by
  obtain ⟨p, hp, hs⟩ := h
  exact ⟨p, hps p hp, hs⟩

/-! ## Remembered spans -/

theorem groups_next (k : Cursor) (c : Char) (t : Text) : (k.next c t).groups = k.groups := rfl

theorem groups_past {t : Text} {k k' : Cursor} (h : k.past t = some k') :
    k'.groups = k.groups := by
  induction t generalizing k with
  | nil =>
    cases h
    rfl
  | cons c t ih =>
    unfold past at h
    split at h
    · cases h
    · split at h
      · exact (ih h).trans (groups_next ..)
      · cases h

theorem mem_groups_roundOutcomes {step : Cursor → List Cursor} {n : Nat} {ps : List Pattern}
    (hstep : ∀ k k' s, k' ∈ step k → (n, s) ∈ k'.groups → (n, s) ∈ k.groups ∨ MatchedBy ps s)
    {greedy : Bool} {fuel : Nat} {k k' : Cursor} {s : Span}
    (h : k' ∈ roundOutcomes step greedy fuel k) (hs : (n, s) ∈ k'.groups) :
    (n, s) ∈ k.groups ∨ MatchedBy ps s := by
  induction fuel generalizing k with
  | zero =>
    rw [roundOutcomes, List.mem_singleton] at h
    exact Or.inl (h ▸ hs)
  | succ fuel ih =>
    rcases mem_roundOutcomes_succ.1 h with rfl | ⟨k₁, hk₁, -, h⟩
    · exact Or.inl hs
    · rcases ih h with h | h
      · exact hstep k k₁ s hk₁ h
      · exact Or.inr h

theorem mem_groups_ite {b : Bool} {n : Nat} {k k' : Cursor} {s : Span}
    (h : k' ∈ if b then [k] else []) (hs : (n, s) ∈ k'.groups) : (n, s) ∈ k.groups := by
  split at h
  · rw [List.mem_singleton] at h
    exact h ▸ hs
  · cases h

/-- A match remembers what was remembered before, and what its parts have matched. -/
theorem mem_groups_outcomes (n : Nat) (p : Pattern) {k k' : Cursor} {s : Span}
    (h : k' ∈ p.outcomes k) (hs : (n, s) ∈ k'.groups) :
    (n, s) ∈ k.groups ∨ MatchedBy (p.bodies n) s := by
  induction p generalizing k k' s with
  | empty =>
    rw [outcomes, List.mem_singleton] at h
    exact Or.inl (h ▸ hs)
  | one test =>
    unfold outcomes at h
    split at h
    · cases h
    · exact Or.inl (mem_groups_ite (k := k.next ..) h hs)
  | chars test =>
    obtain ⟨u, -, rfl⟩ := ((mem_stops rfl).1 h).resolve_left List.not_mem_nil
    exact Or.inl hs
  | seq p q ihp ihq =>
    obtain ⟨k₁, hk₁, h⟩ := List.mem_flatMap.1 h
    rcases ihq h hs with hs | hs
    · exact (ihp hk₁ hs).imp_right fun hs => hs.mono fun r hr => List.mem_append_left _ hr
    · exact Or.inr (hs.mono fun r hr => List.mem_append_right _ hr)
  | either p q ihp ihq =>
    rcases List.mem_append.1 h with h | h
    · exact (ihp h hs).imp_right fun hs => hs.mono fun r hr => List.mem_append_left _ hr
    · exact (ihq h hs).imp_right fun hs => hs.mono fun r hr => List.mem_append_right _ hr
  | star greedy p ih => exact mem_groups_roundOutcomes (fun _ _ _ h hs => ih h hs) h hs
  | group m p ih =>
    obtain ⟨k₁, hk₁, rfl⟩ := List.mem_map.1 h
    rcases List.mem_cons.1 hs with hs | hs
    · obtain ⟨rfl, rfl⟩ := Prod.mk.inj hs
      refine Or.inr ⟨p, ?_, k, k₁, hk₁, rfl⟩
      simp [bodies]
    · refine (ih hk₁ hs).imp_right fun hs => hs.mono fun r hr => ?_
      unfold bodies
      split
      · exact List.mem_cons_of_mem _ hr
      · exact hr
  | again m =>
    refine Or.inl ?_
    rw [outcomes, Option.mem_toList, Option.bind_eq_some_iff] at h
    obtain ⟨t, -, h⟩ := h
    exact groups_past h ▸ hs
  | textStart => exact Or.inl (mem_groups_ite h hs)
  | lineStart => exact Or.inl (mem_groups_ite h hs)
  | textEnd => exact Or.inl (mem_groups_ite h hs)
  | lineEnd => exact Or.inl (mem_groups_ite h hs)
  | wordEdge => exact Or.inl (mem_groups_ite h hs)
  | notAhead p ih => exact Or.inl (mem_groups_ite h hs)

theorem isWord_of_mem_upTo_identifier {k k' : Cursor} (h : k' ∈ identifier.outcomes k) :
    ∀ c ∈ (k.upTo k').text, Text.isWord c = true := by
  obtain ⟨u, t, gs, hu, ht, rfl, -⟩ := exists_of_mem_outcomes rfl h
  intro c hc
  exact (accepts_many1_one.1 hu).2 c ((text_upTo_begins ht).subset hc)

/-! ## Matches that were found -/

variable {p : Pattern} {n : Nat} {m : Match} {t : Text}

theorem search_eq_of_here (h : p.here none 0 t.length t = some m) :
    p.search t = some m := by
  unfold search
  cases t with
  | nil => exact h
  | cons c t =>
    unfold searchFrom
    rw [h]

/-- What is found in a text begins at one of its places. -/
theorem exists_here_of_search (h : p.search t = some m) :
    ∃ b start u, p.here b start u.length u = some m :=
  ⟨_, _, _, (firstFrom_of_search h).2.1⟩

theorem exists_here_of_sequence (h : m ∈ p.sequence t) :
    ∃ b start u m' offset, p.here b start u.length u = some m' ∧ m = m'.shift offset := by
  have hfrom : ∀ fuel offset (t : Text), m ∈ p.sequenceFrom fuel offset t →
      ∃ b start u m' offset, p.here b start u.length u = some m' ∧ m = m'.shift offset := by
    intro fuel
    induction fuel with
    | zero => exact fun _ _ h => nomatch h
    | succ fuel ih =>
      intro offset t h
      unfold sequenceFrom at h
      cases hm' : p.search t with
      | none => simp [hm'] at h
      | some m' =>
        rw [hm'] at h
        rcases List.mem_cons.1 h with rfl | h
        · obtain ⟨b, start, u, hhere⟩ := exists_here_of_search hm'
          exact ⟨b, start, u, m', offset, hhere, rfl⟩
        · exact ih _ _ h
  exact hfrom _ 0 t h

/-- A match that begins right here, and the texts it remembers. -/
theorem exists_run_of_here {b : Option Char} {start left : Nat}
    (h : p.here b start left t = some m) :
    ∃ k', p.run ⟨b, t, left, []⟩ some = some k' ∧ m.start = start ∧
      m.text = (Cursor.upTo ⟨b, t, left, []⟩ k').text ∧
      ∀ n, m.group (n + 1) = if n < p.groupCount then (k'.group? (n + 1)).getD [] else [] := by
  obtain ⟨k', hk', rfl⟩ := Option.map_eq_some_iff.1 h
  refine ⟨k', hk', rfl, rfl, fun n => ?_⟩
  rw [Match.group, Nat.add_sub_cancel, List.getElem?_map]
  by_cases hn : n < p.groupCount <;> simp [hn]

theorem text_prefix_of_here {b : Option Char} {start left : Nat}
    (h : p.here b start left t = some m) : m.text <+: t := by
  obtain ⟨k', -, -, htext, -⟩ := exists_run_of_here h
  rw [htext]
  exact List.take_prefix _ t

theorem isWord_of_here {b : Option Char} {start left : Nat}
    (hp : p.bodies (n + 1) = [identifier]) (h : p.here b start left t = some m) :
    ∀ c ∈ m.group (n + 1), Text.isWord c = true := by
  obtain ⟨k', hk', -, -, hgroup⟩ := exists_run_of_here h
  rw [run_some_eq_head?] at hk'
  intro c hc
  obtain ⟨s, hs, hcs⟩ : ∃ s, (n + 1, s) ∈ k'.groups ∧ c ∈ s.text := by
    rw [hgroup] at hc
    split at hc
    · unfold Cursor.group? at hc
      cases hl : k'.groups.lookup (n + 1) with
      | none => simp [hl] at hc
      | some s => exact ⟨s, Table.mem_of_get?_eq_some hl, by simpa [hl] using hc⟩
    · cases hc
  rcases mem_groups_outcomes (n + 1) p (List.mem_of_mem_head? hk') hs with h | h
  · cases h
  · rw [hp] at h
    obtain ⟨q, hq, k₁, k₂, hk₂, rfl⟩ := h
    rw [List.mem_singleton] at hq
    subst hq
    exact isWord_of_mem_upTo_identifier hk₂ c hcs

theorem isWord_of_search (hp : p.bodies (n + 1) = [identifier]) (h : p.search t = some m) :
    ∀ c ∈ m.group (n + 1), Text.isWord c = true := by
  obtain ⟨b, start, u, hhere⟩ := exists_here_of_search h
  exact isWord_of_here hp hhere

theorem isWord_of_sequence (hp : p.bodies (n + 1) = [identifier]) (h : m ∈ p.sequence t) :
    ∀ c ∈ m.group (n + 1), Text.isWord c = true := by
  obtain ⟨b, start, u, m', offset, hhere, rfl⟩ := exists_here_of_sequence h
  exact isWord_of_here (m := m') hp hhere

end ShaderLink.Pattern
