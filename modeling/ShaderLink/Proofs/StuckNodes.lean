import Mathlib.Order.WellFounded
import ShaderLink.Proofs.Emission

/-!
# Nodes that are never emitted

A node is stuck if a chain of predecessors from it never ends or leads to something that is no node
of the graph (`IsStuck`).  Self-loops, cycles, predecessors without an entry and all nodes behind
such things are covered by this.  The nodes that are not emitted are exactly the stuck ones
(`mem_emitted_iff_not_isStuck`), which gives the outcome of `Precedence.order` for every graph:
`order_outcome`.
-/

namespace ShaderLink.Precedence

open Relation

variable {g : Precedence} {k p : Text} {l : List Text}

/-- Some chain of predecessors from the node never ends, or reaches something that is no node. -/
def IsStuck (g : Precedence) (k : Text) : Prop :=
  (∃ c : ℕ → Text, c 0 = k ∧ ∀ n, Waits g (c n) (c (n + 1))) ∨
    ∃ p, ReflTransGen (Waits g) k p ∧ p ∉ Table.keys g

/-! ## Which nodes are stuck -/

/-- All chains of predecessors from the node end, and pass through nodes only. -/
structure Grounded (g : Precedence) (k : Text) : Prop where
  acc : Acc (flip (Waits g)) k
  closed : ∀ p, ReflTransGen (Waits g) k p → p ∈ Table.keys g

theorem isStuck_iff_not_grounded : IsStuck g k ↔ ¬ Grounded g k := by
  have hchain : (∃ c : ℕ → Text, c 0 = k ∧ ∀ n, Waits g (c n) (c (n + 1))) ↔
      ¬ Acc (flip (Waits g)) k :=
    (not_acc_iff_exists_descending_chain (r := flip (Waits g))).symm
  rw [IsStuck, hchain]
  constructor
  · rintro (hacc | ⟨p, hp, hno⟩) hk
    · exact hacc hk.acc
    · exact hno (hk.closed p hp)
  · intro hk
    by_contra h
    push Not at h
    exact hk ⟨h.1, h.2⟩

/-- The nodes of a settled list wait for nothing in the end, and for nodes of the list only. -/
theorem Settled.grounded (h : Settled g l) (hl : l ⊆ Table.keys g) : ∀ k ∈ l, Grounded g k := by
  induction l with
  | nil => exact List.forall_mem_nil _
  | cons a l ih =>
    obtain ⟨ha, hl⟩ := List.cons_subset.1 hl
    have hearlier := ih h.2 hl
    refine List.forall_mem_cons.2 ⟨⟨Acc.intro a fun p hp => ?_, fun p hp => ?_⟩, hearlier⟩
    · exact (hearlier p (h.1 p hp)).acc
    · rcases ReflTransGen.cases_head hp with rfl | ⟨q, haq, hqp⟩
      · exact ha
      · exact (hearlier q (h.1 q haq)).closed p hqp

/-- Induction on the chains of predecessors: if all of them are emitted, then so is the node. -/
theorem Grounded.mem_emitted (hg : (Table.keys g).Nodup) (h : Grounded g k) :
    k ∈ (emitAll g).emitted := by
  obtain ⟨hacc, hclosed⟩ := h
  induction hacc with
  | intro k _ ih =>
    refine (mem_emitted_emitAll hg k).2 ⟨hclosed k .refl, fun p hp => ?_⟩
    exact ih p hp fun q hq => hclosed q (hq.head hp)

theorem mem_emitted_iff_not_isStuck (hg : (Table.keys g).Nodup) :
    k ∈ (emitAll g).emitted ↔ ¬ IsStuck g k := by
  rw [isStuck_iff_not_grounded, not_not]
  refine ⟨?_, Grounded.mem_emitted hg⟩
  exact (settled_emitAll hg).grounded (fun k hk => ((mem_emitted_emitAll hg k).1 hk).1) k

theorem mem_stuck_emitAll (hg : (Table.keys g).Nodup) :
    k ∈ stuck (emitAll g) ↔ k ∈ Table.keys g ∧ IsStuck g k := by
  rw [stuck_emitAll hg, List.mem_filter, decide_eq_true_eq, mem_emitted_iff_not_isStuck hg, not_not]

theorem stuck_emitAll_sublist (hg : (Table.keys g).Nodup) :
    (stuck (emitAll g)).Sublist (Table.keys g) := by
  rw [stuck_emitAll hg]
  exact List.filter_sublist

theorem stuck_eq_nil_iff (hg : (Table.keys g).Nodup) :
    stuck (emitAll g) = [] ↔ ∀ k ∈ Table.keys g, ¬ IsStuck g k := by
  rw [List.eq_nil_iff_forall_not_mem]
  exact forall_congr' fun k => by rw [mem_stuck_emitAll hg, not_and]

/-! ## The order -/

theorem Settled.of_append {l' : List Text} (h : Settled g (l ++ l')) : Settled g l' := by
  induction l with
  | nil => exact h
  | cons a l ih => exact ih h.2

/-- In the order of emission each node stands after its predecessors. -/
theorem mem_of_emitted_reverse (hg : (Table.keys g).Nodup) {a b : List Text}
    (h : (emitAll g).emitted.reverse = a ++ k :: b) (hp : Waits g k p) : p ∈ a := by
  have hemitted : (emitAll g).emitted = b.reverse ++ k :: a.reverse := by
    rw [← List.reverse_reverse (emitAll g).emitted, h]
    simp
  have hsettled := settled_emitAll hg
  rw [hemitted] at hsettled
  exact List.mem_reverse.1 (hsettled.of_append.1 p hp)

theorem emitted_perm_keys (hg : (Table.keys g).Nodup) (h : stuck (emitAll g) = []) :
    (emitAll g).emitted.reverse.Perm (Table.keys g) := by
  refine (List.reverse_perm _).trans ?_
  refine (List.perm_ext_iff_of_nodup (nodup_emitted_emitAll hg) hg).2 fun k => ?_
  refine ⟨fun hk => ((mem_emitted_emitAll hg k).1 hk).1, fun hk => ?_⟩
  exact (mem_emitted_iff_not_isStuck hg).2 ((stuck_eq_nil_iff hg).1 h k hk)

/-! ## The end of the run -/

theorem emit_of_ready_eq_nil {e : Emission} (h : e.ready = []) (fuel : Nat) : emit fuel e = e := by
  cases fuel with
  | zero => rfl
  | succ fuel => rw [emit, h]

theorem emit_add (m n : Nat) (e : Emission) : emit (m + n) e = emit n (emit m e) := by
  induction m generalizing e with
  | zero => rw [Nat.zero_add, emit]
  | succ m ih =>
    cases hready : e.ready with
    | nil => simp only [emit_of_ready_eq_nil hready]
    | cons node ready =>
      rw [Nat.succ_add, emit, emit, hready]
      exact ih _

/-- After as many rounds as there are nodes no node is ready, and nothing happens any more. -/
theorem emit_eq_emitAll (hg : (Table.keys g).Nodup) {fuel : Nat} (h : g.length ≤ fuel) :
    emit fuel (started g) = emitAll g := by
  obtain ⟨n, rfl⟩ := Nat.exists_eq_add_of_le h
  rw [emit_add]
  exact emit_of_ready_eq_nil (ready_emitAll hg) n

/-- What becomes of any graph.  The run ends by itself, after one round for each node at most.  It
returns an order if and only if no node is stuck, and then every node stands in the order once and
after all its predecessors.  Otherwise the fault lists exactly the stuck nodes, in the order of the
graph.  (Graphs are values, so the graph itself is what it was before.) -/
theorem order_outcome {g : Precedence} (hg : (Table.keys g).Nodup) :
    (∀ fuel, g.length ≤ fuel →
      (emit fuel (started g)).ready = [] ∧ emit fuel (started g) = emitAll g) ∧
    ((∃ l, order g = .ok l) ↔ ∀ k ∈ Table.keys g, ¬ IsStuck g k) ∧
    (∀ l, order g = .ok l → l.Perm (Table.keys g) ∧
      ∀ a k b, l = a ++ k :: b → ∀ p, Waits g k p → p ∈ a) ∧
    ((∃ k ∈ Table.keys g, IsStuck g k) → ∃ ks, order g = .error (Cause.stuck ks).fault ∧
      (Cause.stuck ks).family = some .invariant ∧
      ks.Sublist (Table.keys g) ∧ ∀ k, k ∈ ks ↔ k ∈ Table.keys g ∧ IsStuck g k) := by
  refine ⟨fun fuel hfuel => ?_, ?_, fun l hl => ?_, fun ⟨k, hk, hstuck⟩ => ?_⟩
  · rw [emit_eq_emitAll hg hfuel]
    exact ⟨ready_emitAll hg, rfl⟩
  · rw [← stuck_eq_nil_iff hg]
    refine ⟨fun ⟨l, hl⟩ => ?_, fun h => ⟨_, order_eq_ok h⟩⟩
    by_contra hne
    rw [order_eq_error hne] at hl
    cases hl
  · have hnil : stuck (emitAll g) = [] := by
      by_contra hne
      rw [order_eq_error hne] at hl
      cases hl
    rw [order_eq_ok hnil] at hl
    cases hl
    exact ⟨emitted_perm_keys hg hnil, fun a k b h p hp => mem_of_emitted_reverse hg h hp⟩
  · have hne : stuck (emitAll g) ≠ [] :=
      List.ne_nil_of_mem ((mem_stuck_emitAll hg).2 ⟨hk, hstuck⟩)
    exact ⟨_, order_eq_error hne, rfl, stuck_emitAll_sublist hg, fun k => mem_stuck_emitAll hg⟩

/-- A graph with a node that waits for itself, one that waits for something that is no node, and one
behind both, among others. -/
def sampleTangle : Precedence :=
  [("last".toList, ["loop".toList, "lost".toList]), ("loop".toList, ["loop".toList]),
    ("second".toList, ["first".toList]), ("lost".toList, ["first".toList, "nowhere".toList]),
    ("first".toList, [])]

theorem order_outcome_tangle :
    (Table.keys sampleTangle).Nodup ∧
    (¬ ∃ l, order sampleTangle = .ok l) ∧
    order sampleTangle = .error (Cause.stuck ["last".toList, "loop".toList, "lost".toList]).fault ∧
    IsStuck sampleTangle "last".toList ∧ ¬ IsStuck sampleTangle "second".toList := by
  have hnodup : (Table.keys sampleTangle).Nodup := by decide
  have horder : order sampleTangle =
      .error (Cause.stuck ["last".toList, "loop".toList, "lost".toList]).fault := by decide +kernel
  obtain ⟨-, hok, -, hfault⟩ := order_outcome hnodup
  have hnone : ¬ ∃ l, order sampleTangle = .ok l := by
    rintro ⟨l, hl⟩
    rw [horder] at hl
    cases hl
  have hstuck : ∃ k ∈ Table.keys sampleTangle, IsStuck sampleTangle k := by
    by_contra h
    push Not at h
    exact hnone (hok.2 h)
  obtain ⟨ks, hks, -, -, hmem⟩ := hfault hstuck
  rw [horder] at hks
  cases hks
  refine ⟨hnodup, hnone, horder, ((hmem _).1 (by decide)).2, fun h => ?_⟩
  have hsecond := (hmem "second".toList).2 ⟨by decide, h⟩
  revert hsecond
  decide

end ShaderLink.Precedence
