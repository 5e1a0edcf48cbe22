import ShaderLink.Pattern.Basic

/-!
# The outcomes of a pattern

`Pattern.outcomes` lists every place at which a match from a cursor can end, in the order in which
they are tried.  Matching hands these to its continuation one by one and keeps the first that is
accepted (`run_eq_findSome?`); in particular a match, taken by itself, is the first outcome.
-/

namespace ShaderLink.Pattern

/-- The ends of any number of rounds, in the order in which they are tried. -/
def roundOutcomes (step : Cursor → List Cursor) (greedy : Bool) : (fuel : Nat) → Cursor → List Cursor
  | 0, k => [k]
  | fuel + 1, k =>
    let more := (step k).flatMap fun k' =>
      if k'.left < k.left then roundOutcomes step greedy fuel k' else []
    if greedy then more ++ [k] else k :: more

/-- The ends of all matches from a cursor on, in the order in which they are tried. -/
def outcomes : Pattern → Cursor → List Cursor
  | empty, k => [k]
  | one test, k =>
    match k.rest with
    | [] => []
    | c :: t => if test c then [k.next c t] else []
  | chars test, k => k.stops test k.rest []
  | seq p q, k => (p.outcomes k).flatMap q.outcomes
  | either p q, k => p.outcomes k ++ q.outcomes k
  | star greedy p, k => roundOutcomes p.outcomes greedy k.left k
  | group n p, k => (p.outcomes k).map fun k' => k'.remember n (k.upTo k')
  | again n, k => ((k.group? n).bind fun t => k.past t).toList
  | textStart, k => if k.atTextStart then [k] else []
  | lineStart, k => if k.atLineStart then [k] else []
  | textEnd, k => if k.atTextEnd then [k] else []
  | lineEnd, k => if k.atLineEnd then [k] else []
  | wordEdge, k => if k.atWordEdge then [k] else []
  | notAhead p, k => if (p.outcomes k).isEmpty then [k] else []

/-- Rounds end where they are or go on after one more step that moves on. -/
theorem mem_roundOutcomes_succ {step : Cursor → List Cursor} {greedy : Bool} {fuel : Nat}
    {k k' : Cursor} : k' ∈ roundOutcomes step greedy (fuel + 1) k ↔
      k' = k ∨ ∃ k₁ ∈ step k, k₁.left < k.left ∧ k' ∈ roundOutcomes step greedy fuel k₁ := by
  have hmore : (k' ∈ (step k).flatMap fun k₁ =>
      if k₁.left < k.left then roundOutcomes step greedy fuel k₁ else []) ↔
      ∃ k₁ ∈ step k, k₁.left < k.left ∧ k' ∈ roundOutcomes step greedy fuel k₁ := by
    rw [List.mem_flatMap]
    refine exists_congr fun k₁ => and_congr_right fun _ => ?_
    by_cases h : k₁.left < k.left <;> simp [h]
  cases greedy with
  | true => exact List.mem_append.trans (by rw [hmore, List.mem_singleton, or_comm])
  | false => exact List.mem_cons.trans (by rw [hmore])

theorem findSome?_ite_singleton (b : Bool) (k : Cursor) (done : Cursor → Option Cursor) :
    (if b then [k] else []).findSome? done = if b then done k else none := by
  cases b <;> simp

theorem findSome?_flatMap_eq (l : List Cursor) (f : Cursor → List Cursor)
    (done : Cursor → Option Cursor) :
    (l.flatMap f).findSome? done = l.findSome? fun k => (f k).findSome? done := by
  induction l with
  | nil => rfl
  | cons a l ih =>
    rw [List.flatMap_cons, List.findSome?_append, List.findSome?_cons, ih]
    cases (f a).findSome? done <;> rfl

theorem findSome?_map_eq (l : List Cursor) (f : Cursor → Cursor) (done : Cursor → Option Cursor) :
    (l.map f).findSome? done = l.findSome? fun k => done (f k) := by
  induction l with
  | nil => rfl
  | cons a l ih => simp only [List.map_cons, List.findSome?_cons, ih]

theorem findSome?_some (l : List Cursor) : l.findSome? some = l.head? := by
  cases l <;> rfl

theorem rounds_eq_findSome? {step : Cursor → (Cursor → Option Cursor) → Option Cursor}
    {ends : Cursor → List Cursor} (h : ∀ k done, step k done = (ends k).findSome? done)
    (greedy : Bool) (fuel : Nat) (k : Cursor) (done : Cursor → Option Cursor) :
    rounds step greedy fuel k done = (roundOutcomes ends greedy fuel k).findSome? done := by
  induction fuel generalizing k with
  | zero => simp [rounds, roundOutcomes]
  | succ fuel ih =>
    have more : (step k fun k' => if k'.left < k.left then rounds step greedy fuel k' done else none)
        = ((ends k).flatMap fun k' =>
            if k'.left < k.left then roundOutcomes ends greedy fuel k' else []).findSome? done := by
      rw [findSome?_flatMap_eq, h]
      congr 1
      funext k'
      by_cases hk : k'.left < k.left <;> simp [hk, ih]
    cases greedy
    · simp only [rounds, roundOutcomes, more, Bool.false_eq_true, if_false, List.findSome?_cons]
      cases done k <;> rfl
    · simp only [rounds, roundOutcomes, more, if_true, List.findSome?_append]
      cases List.findSome? done _ <;> simp

/-- Matching tries the outcomes in order. -/
theorem run_eq_findSome? (p : Pattern) (k : Cursor) (done : Cursor → Option Cursor) :
    p.run k done = (p.outcomes k).findSome? done := by
  induction p generalizing k done with
  | empty => simp [run, outcomes]
  | one test =>
    simp only [run, outcomes]
    cases k.rest with
    | nil => rfl
    | cons c t => by_cases h : test c <;> simp [h]
  | chars test => rfl
  | seq p q ihp ihq =>
    rw [run, outcomes, ihp, findSome?_flatMap_eq]
    congr 1
    funext k'
    exact ihq k' done
  | either p q ihp ihq =>
    rw [run, outcomes, ihp, ihq, List.findSome?_append]
    cases List.findSome? done (p.outcomes k) <;> rfl
  | star greedy p ih => exact rounds_eq_findSome? ih greedy k.left k done
  | group n p ih => rw [run, outcomes, ih, findSome?_map_eq]
  | again n =>
    rw [run, outcomes]
    cases (k.group? n).bind fun t => k.past t <;> simp
  | textStart => exact (findSome?_ite_singleton _ k done).symm
  | lineStart => exact (findSome?_ite_singleton _ k done).symm
  | textEnd => exact (findSome?_ite_singleton _ k done).symm
  | lineEnd => exact (findSome?_ite_singleton _ k done).symm
  | wordEdge => exact (findSome?_ite_singleton _ k done).symm
  | notAhead p ih =>
    rw [run, outcomes, findSome?_ite_singleton, ih, findSome?_some]
    cases p.outcomes k <;> rfl

/-- A match taken by itself is the first outcome. -/
theorem run_some_eq_head? (p : Pattern) (k : Cursor) : p.run k some = (p.outcomes k).head? := by
  rw [run_eq_findSome?, findSome?_some]

end ShaderLink.Pattern
