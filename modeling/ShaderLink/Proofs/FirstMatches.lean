import ShaderLink.Pattern.Search

/-!
# The first match in a text

A search tries one place after the other, so it finds the match that begins first
(`firstFrom_search`).  Where a match begins, it is the one that the pattern makes there, whatever
the search has passed over before.
-/

namespace ShaderLink.Pattern

variable {p : Pattern} {t : Text} {m : Match} {n i : Nat}

/-- The match that begins at a place of a text. -/
def matchAt (p : Pattern) (t : Text) (i : Nat) : Option Match :=
  p.here (t.take i).getLast? i (t.drop i).length (t.drop i)

theorem matchAt_append (p : Pattern) (u v : Text) :
    p.matchAt (u ++ v) u.length = p.here u.getLast? u.length v.length v := by
  rw [matchAt, List.take_left, List.drop_left]

theorem start_of_matchAt (h : p.matchAt t i = some m) : m.start = i := by
  obtain ⟨k', -, rfl⟩ := Option.map_eq_some_iff.1 h
  rfl

/-- The match that begins first from a place on, or none if there is none. -/
def FirstFrom (p : Pattern) (t : Text) (n : Nat) : Option Match → Prop
  | some m => (n ≤ m.start ∧ m.start ≤ t.length) ∧ p.matchAt t m.start = some m ∧
    ∀ i, n ≤ i → i < m.start → p.matchAt t i = none
  | none => ∀ i, n ≤ i → i ≤ t.length → p.matchAt t i = none

theorem FirstFrom.of_some (hn : n ≤ t.length) (h : p.matchAt t n = some m) :
    p.FirstFrom t n (some m) := by
  obtain rfl := start_of_matchAt h
  exact ⟨⟨Nat.le_refl _, hn⟩, h, fun i hi hlt => absurd hlt (Nat.not_lt.2 hi)⟩

/-- Where nothing begins, the first match is the first one further on. -/
theorem FirstFrom.of_none (hnone : p.matchAt t n = none) {r : Option Match}
    (h : p.FirstFrom t (n + 1) r) : p.FirstFrom t n r := by
  cases r with
  | none =>
    intro i hi hend
    rcases Nat.eq_or_lt_of_le hi with rfl | hlt
    · exact hnone
    · exact h i hlt hend
  | some m =>
    obtain ⟨⟨hle, hend⟩, hm, hearlier⟩ := h
    refine ⟨⟨Nat.le_of_succ_le hle, hend⟩, hm, fun i hi hbefore => ?_⟩
    rcases Nat.eq_or_lt_of_le hi with rfl | hlt
    · exact hnone
    · exact hearlier i hlt hbefore

theorem firstFrom_searchFrom (p : Pattern) (u v : Text) :
    p.FirstFrom (u ++ v) u.length (p.searchFrom u.getLast? u.length v.length v) := by
  induction v generalizing u with
  | nil =>
    have hhere := matchAt_append p u []
    show p.FirstFrom (u ++ []) u.length (p.here u.getLast? u.length 0 [])
    cases hm : p.here u.getLast? u.length 0 [] with
    | some m => exact .of_some (List.prefix_append u []).length_le (hhere.trans hm)
    | none =>
      intro i hi hend
      rw [List.append_nil] at hend
      obtain rfl := Nat.le_antisymm hend hi
      exact hhere.trans hm
  | cons c v ih =>
    have hhere := matchAt_append p u (c :: v)
    unfold searchFrom
    cases hm : p.here u.getLast? u.length (c :: v).length (c :: v) with
    | some m => exact .of_some (List.prefix_append u _).length_le (hhere.trans hm)
    | none =>
      have hrest := ih (u ++ [c])
      rw [List.append_assoc, List.length_append, List.getLast?_concat] at hrest
      exact .of_none (hhere.trans hm) hrest

/-- A search finds the match that begins first. -/
theorem firstFrom_search (p : Pattern) (t : Text) : p.FirstFrom t 0 (p.search t) :=
  firstFrom_searchFrom p [] t

theorem firstFrom_of_search (h : p.search t = some m) : p.FirstFrom t 0 (some m) :=
  h ▸ firstFrom_search p t

end ShaderLink.Pattern
