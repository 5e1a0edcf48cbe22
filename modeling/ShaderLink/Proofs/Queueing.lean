import Mathlib.Data.Prod.Lex
import Mathlib.Order.Lattice.Nat
import ShaderLink.Proofs.Sorting
import ShaderLink.Proofs.StuckNodes

/-!
# First ready, first emitted

A node becomes ready when the last of its predecessors is emitted, and of the nodes that become
ready at once the first in the graph comes first.  So the emitted nodes and the ready ones behind
them always stand in the order of their turns (`Emission.Queued`), and the order that comes out can
be told from itself: `order_turns`.  It also goes by the longest chains of predecessors.
-/

namespace ShaderLink.Precedence

variable {g : Precedence} {k p node a b : Text} {l l' ready out : List Text} {e : Emission} {n : ℕ}

/-! ## Turns -/

/-- The largest place that a predecessor of a node has in a list, or -1 if the node has none. -/
def lastPlace (g : Precedence) (l : List Text) (k : Text) : Int :=
  (((g.get? k).getD []).map fun p => (l.idxOf p : Int)).foldr max (-1)

/-- When it is a node's turn: first behind the last of its predecessors, then by its place in the
graph. -/
def turn (g : Precedence) (l : List Text) (k : Text) : Int ×ₗ ℕ :=
  toLex (lastPlace g l k, (Table.keys g).idxOf k)

theorem foldr_max_le_iff {l : List Int} {b n : Int} :
    l.foldr max b ≤ n ↔ b ≤ n ∧ ∀ x ∈ l, x ≤ n := by
  induction l with
  | nil => simp
  | cons x l ih =>
    rw [List.foldr_cons, max_le_iff, ih, List.forall_mem_cons]
    exact and_left_comm

theorem mem_getD_get?_iff (hg : (Table.keys g).Nodup) : p ∈ (g.get? k).getD [] ↔ Waits g k p := by
  cases hk : g.get? k with
  | none =>
    have hno : k ∉ Table.keys g := Table.get?_eq_none_iff.1 hk
    exact ⟨fun h => (List.not_mem_nil h).elim, fun h => (hno h.mem_keys).elim⟩
  | some ps => exact (waits_iff_of_mem hg ((Table.get?_eq_some_iff hg).1 hk)).symm

theorem lastPlace_le_iff (hg : (Table.keys g).Nodup) {n : Int} :
    lastPlace g l k ≤ n ↔ -1 ≤ n ∧ ∀ p, Waits g k p → (l.idxOf p : Int) ≤ n := by
  rw [lastPlace, foldr_max_le_iff, List.forall_mem_map]
  simp only [mem_getD_get?_iff hg]

theorem le_lastPlace (hg : (Table.keys g).Nodup) (h : Waits g k p) :
    (l.idxOf p : Int) ≤ lastPlace g l k :=
  ((lastPlace_le_iff hg).1 le_rfl).2 p h

theorem neg_one_le_lastPlace (hg : (Table.keys g).Nodup) : -1 ≤ lastPlace g l k :=
  ((lastPlace_le_iff hg).1 le_rfl).1

/-- What is emitted later does not change the turn of a node whose predecessors are all emitted. -/
theorem turn_append (hg : (Table.keys g).Nodup) (h : ∀ p, Waits g k p → p ∈ l) :
    turn g (l ++ l') k = turn g l k := by
  have hplaces : ((g.get? k).getD []).map (fun p => ((l ++ l').idxOf p : Int)) =
      ((g.get? k).getD []).map fun p => (l.idxOf p : Int) := by
    refine List.map_congr_left fun p hp => ?_
    rw [List.idxOf_append_of_mem (h p ((mem_getD_get?_iff hg).1 hp))]
  rw [turn, turn, lastPlace, lastPlace, hplaces]

theorem lastPlace_lt (hg : (Table.keys g).Nodup) (h : ∀ p, Waits g k p → p ∈ l) :
    lastPlace g l k < l.length := by
  have hle : lastPlace g l k ≤ (l.length : Int) - 1 := by
    refine (lastPlace_le_iff hg).2 ⟨by omega, fun p hp => ?_⟩
    have := List.idxOf_lt_length_of_mem (h p hp)
    omega
  omega

/-- A node that has waited for the last emitted one only has that one's place. -/
theorem lastPlace_concat (hg : (Table.keys g).Nodup) (hnode : node ∉ l) (hk : Waits g k node)
    (h : ∀ p, Waits g k p → p ∈ l ++ [node]) : lastPlace g (l ++ [node]) k = l.length := by
  have hplace : (l ++ [node]).idxOf node = l.length := by
    rw [List.idxOf_append_of_notMem hnode, List.idxOf_cons_self, Nat.add_zero]
  have hle := le_lastPlace (l := l ++ [node]) hg hk
  have hlt := lastPlace_lt hg h
  rw [hplace] at hle
  rw [List.length_append, List.length_singleton] at hlt
  omega

/-! ## The queue -/

/-- The emitted nodes, and behind them the ready ones, stand in the order of their turns. -/
def Emission.Queued (g : Precedence) (e : Emission) : Prop :=
  (e.emitted.reverse ++ e.ready).Pairwise fun a b =>
    turn g e.emitted.reverse a < turn g e.emitted.reverse b

/-- Nodes that became ready at once are queued by their places in the graph. -/
theorem pairwise_turn_of_sublist (hg : (Table.keys g).Nodup) (hl : l.Sublist (Table.keys g))
    (hlast : ∀ a ∈ l, ∀ b ∈ l, lastPlace g l' a = lastPlace g l' b) :
    l.Pairwise fun a b => turn g l' a < turn g l' b := by
  refine ((pairwise_idxOf_lt hg).sublist hl).imp_of_mem fun ha hb hab => ?_
  exact Prod.Lex.toLex_lt_toLex.2 (Or.inr ⟨hlast _ ha _ hb, hab⟩)

theorem queued_started (hg : (Table.keys g).Nodup) : (started g).Queued g := by
  have hnone : ∀ k ∈ (started g).ready, lastPlace g [] k = -1 := by
    intro k hk
    have hfree := ((mem_keys_filter_isEmpty hg k).1 hk).2
    exact le_antisymm ((lastPlace_le_iff hg).2 ⟨le_rfl, fun p hp => (hfree p hp).elim⟩)
      (neg_one_le_lastPlace hg)
  exact pairwise_turn_of_sublist hg (List.filter_sublist.map _) fun a ha b hb =>
    (hnone a ha).trans (hnone b hb).symm

theorem released_sublist (he : e.Sound g) (node : Text) :
    (released node e.waiting).Sublist (Table.keys g) := by
  have hkeys : Table.keys e.waiting = Table.keys g := by
    simp [he.waiting, Table.keys, Function.comp_def]
  exact hkeys ▸ List.filter_sublist.map _

/-- Emitting the next ready node keeps the turns. -/
theorem Emission.Queued.next (h : e.Queued g) (he : e.Sound g) (hg : (Table.keys g).Nodup)
    (hr : e.ready = node :: ready) : (Precedence.next e node ready).Queued g := by
  have hready : ∀ k ∈ e.emitted.reverse ++ e.ready, ∀ p, Waits g k p → p ∈ e.emitted.reverse := by
    intro k hk p hp
    rw [List.mem_append, List.mem_reverse, ← List.mem_append] at hk
    exact List.mem_reverse.2 (((he.mem_iff k).1 hk).2 p hp)
  have hnode : node ∉ e.emitted := by
    have hnodup := he.nodup
    rw [hr, List.nodup_append] at hnodup
    exact fun hmem => hnodup.2.2 node hmem node List.mem_cons_self rfl
  have hnode' : node ∉ e.emitted.reverse := mt List.mem_reverse.1 hnode
  have hemitted : (Precedence.next e node ready).emitted.reverse = e.emitted.reverse ++ [node] :=
    List.reverse_cons
  have hqueue : (Precedence.next e node ready).emitted.reverse ++
      (Precedence.next e node ready).ready =
        (e.emitted.reverse ++ e.ready) ++ released node e.waiting := by
    rw [hemitted, hr, Precedence.next]
    simp only [List.append_assoc, List.cons_append, List.nil_append]
  -- the released nodes were waiting for `node`, and for nothing else any more
  have hlast : ∀ k ∈ released node e.waiting,
      lastPlace g (e.emitted.reverse ++ [node]) k = e.emitted.reverse.length := by
    intro k hk
    obtain ⟨hwaits, hall⟩ := (mem_released he hg hnode k).1 hk
    refine lastPlace_concat hg hnode' hwaits fun p hp => ?_
    rw [← List.reverse_cons]
    exact List.mem_reverse.2 (hall p hp)
  rw [Queued, hqueue, hemitted, List.pairwise_append]
  refine ⟨?_, ?_, fun a ha b hb => ?_⟩
  · refine List.Pairwise.imp_of_mem (fun ha hb hab => ?_) h
    rwa [turn_append hg (hready _ ha), turn_append hg (hready _ hb)]
  · exact pairwise_turn_of_sublist hg (released_sublist he node) fun a ha b hb =>
      (hlast a ha).trans (hlast b hb).symm
  · rw [turn_append hg (hready a ha)]
    refine Prod.Lex.toLex_lt_toLex.2 (Or.inl ?_)
    rw [hlast b hb]
    exact lastPlace_lt hg (hready a ha)

theorem emit_queued (hg : (Table.keys g).Nodup) (fuel : ℕ) (he : e.Sound g) (h : e.Queued g) :
    (emit fuel e).Queued g := by
  induction fuel generalizing e with
  | zero => exact h
  | succ fuel ih =>
    rw [emit]
    split
    · exact h
    · rename_i node ready hr
      exact ih (he.next hg hr) (h.next he hg hr)

theorem queued_emitAll (hg : (Table.keys g).Nodup) : (emitAll g).Queued g :=
  emit_queued hg _ (sound_started hg) (queued_started hg)

/-! ## The order of the result -/

/-- What comes out is all nodes, each after its predecessors, in the order of their turns. -/
theorem pairwise_turn_of_order (hg : (Table.keys g).Nodup) (h : order g = .ok out) :
    out.Perm (Table.keys g) ∧ Settled g out.reverse ∧
      out.Pairwise fun a b => turn g out a < turn g out b := by
  have hstuck : stuck (emitAll g) = [] := by
    by_contra hne
    rw [order_eq_error hne] at h
    cases h
  rw [order_eq_ok hstuck] at h
  cases h
  have hqueued := queued_emitAll hg
  rw [Emission.Queued, ready_emitAll hg, List.append_nil] at hqueued
  refine ⟨emitted_perm_keys hg hstuck, ?_, hqueued⟩
  rw [List.reverse_reverse]
  exact settled_emitAll hg

/-- In a list that ascends strictly the places of its members ascend as they do. -/
theorem idxOf_lt_iff_of_pairwise {α : Type} [LinearOrder α] {f : Text → α}
    (h : l.Pairwise fun a b => f a < f b) (ha : a ∈ l) (hb : b ∈ l) :
    l.idxOf a < l.idxOf b ↔ f a < f b := by
  have hforward : ∀ {a b : Text}, a ∈ l → b ∈ l → l.idxOf a < l.idxOf b → f a < f b := by
    intro a b ha hb hab
    have hget := List.pairwise_iff_getElem.1 h _ _ (List.idxOf_lt_length_of_mem ha)
      (List.idxOf_lt_length_of_mem hb) hab
    rwa [List.getElem_idxOf, List.getElem_idxOf] at hget
  refine ⟨hforward ha hb, fun hab => ?_⟩
  rcases lt_trichotomy (l.idxOf a) (l.idxOf b) with hlt | heq | hgt
  · exact hlt
  · rw [(List.idxOf_inj ha).1 heq] at hab
    exact absurd hab (lt_irrefl _)
  · exact absurd hab (lt_asymm (hforward hb ha hgt))

/-! ## Chains of predecessors -/

/-- A chain of `n` predecessors leads away from the node. -/
inductive Chain (g : Precedence) : Text → ℕ → Prop
  | nil (k : Text) : Chain g k 0
  | cons {k p : Text} {n : ℕ} : Waits g k p → Chain g p n → Chain g k (n + 1)

/-- The length of the longest chain of predecessors. -/
noncomputable def height (g : Precedence) (k : Text) : ℕ := sSup {n | Chain g k n}

/-- In a list in which nodes stand after their predecessors no chain is longer than the list in
front of the node. -/
theorem Settled.chain_lt (h : Settled g l) (hk : k ∈ l) (hn : Chain g k n) : n < l.length := by
  induction l generalizing k n with
  | nil => cases hk
  | cons a l ih =>
    rw [List.length_cons]
    rcases List.mem_cons.1 hk with rfl | hk
    · cases hn with
      | nil => exact Nat.succ_pos _
      | cons hp hn => exact Nat.succ_lt_succ (ih h.2 (h.1 _ hp) hn)
    · exact (ih h.2 hk hn).trans (Nat.lt_succ_self _)

theorem isGreatest_height (h : Settled g l) (hk : k ∈ l) :
    IsGreatest {n | Chain g k n} (height g k) := by
  have hbounded : BddAbove {n | Chain g k n} := ⟨l.length, fun n hn => (h.chain_lt hk hn).le⟩
  exact ⟨Nat.sSup_mem ⟨0, Chain.nil k⟩ hbounded, fun n hn => le_csSup hbounded hn⟩

/-- Nodes with shorter chains come first: the last predecessors of two nodes stand in the order of
their own heights, and the turns of the nodes follow them. -/
theorem idxOf_lt_of_height_lt (hg : (Table.keys g).Nodup) (h : order g = .ok out) (ha : a ∈ out)
    (hb : b ∈ out) (hab : height g a < height g b) : out.idxOf a < out.idxOf b := by
  obtain ⟨-, hsettled, hturns⟩ := pairwise_turn_of_order hg h
  have hheight : ∀ {k}, k ∈ out → IsGreatest {n | Chain g k n} (height g k) := fun hk =>
    isGreatest_height hsettled (List.mem_reverse.2 hk)
  have hclosed : ∀ {k p}, k ∈ out → Waits g k p → p ∈ out := fun hk hp =>
    List.mem_reverse.1 (hsettled.mem_of_transGen (List.mem_reverse.2 hk) (.single hp))
  induction hn : height g b using Nat.strongRecOn generalizing a b with
  | ind n ih =>
    rw [idxOf_lt_iff_of_pairwise hturns ha hb]
    refine Prod.Lex.toLex_lt_toLex.2 (Or.inl ?_)
    have hchain : Chain g b (height g b) := (hheight hb).1
    obtain ⟨m, hm⟩ : ∃ m, height g b = m + 1 := ⟨height g b - 1, by omega⟩
    rw [hm] at hchain
    cases hchain with
    | @cons _ p _ hp hchain =>
      have hpout := hclosed hb hp
      have hpheight : height g p = m := by
        have hlow := (hheight hpout).2 hchain
        have hhigh := (hheight hb).2 (Chain.cons hp (hheight hpout).1)
        omega
      refine lt_of_lt_of_le ?_ (le_lastPlace hg hp)
      have hle : lastPlace g out a ≤ (out.idxOf p : Int) - 1 := by
        refine (lastPlace_le_iff hg).2 ⟨by omega, fun q hq => ?_⟩
        have hqout := hclosed ha hq
        have hqheight := (hheight ha).2 (Chain.cons hq (hheight hqout).1)
        have := ih m (by omega) hqout hpout (by omega) hpheight
        omega
      omega

/-- The order can be told from itself: a node stands before another one just if the last of its
predecessors does, or if these are the same, or both have none, and it comes first in the graph.  So
the nodes are ordered by the lengths of their longest chains of predecessors. -/
theorem order_turns {g : Precedence} (hg : (Table.keys g).Nodup) {out : List Text}
    (h : order g = .ok out) :
    out.Perm (Table.keys g) ∧
    (∀ a ∈ Table.keys g, ∀ b ∈ Table.keys g,
      out.idxOf a < out.idxOf b ↔
        toLex (lastPlace g out a, (Table.keys g).idxOf a) <
          toLex (lastPlace g out b, (Table.keys g).idxOf b)) ∧
    (∀ k ∈ Table.keys g, IsGreatest {n | Chain g k n} (height g k)) ∧
    out.Pairwise fun a b => height g a ≤ height g b := by
  obtain ⟨hperm, hsettled, hturns⟩ := pairwise_turn_of_order hg h
  refine ⟨hperm, fun a ha b hb => ?_, fun k hk => ?_, ?_⟩
  · exact idxOf_lt_iff_of_pairwise hturns (hperm.mem_iff.2 ha) (hperm.mem_iff.2 hb)
  · exact isGreatest_height hsettled (List.mem_reverse.2 (hperm.mem_iff.2 hk))
  · refine (pairwise_idxOf_lt (hperm.nodup_iff.2 hg)).imp_of_mem fun ha hb hab => ?_
    by_contra hlt
    exact lt_asymm hab (idxOf_lt_of_height_lt hg h hb ha (not_le.1 hlt))

/-- A graph in which a node that has to wait stands before one that is ready from the start. -/
def sampleQueue : Precedence :=
  [("a".toList, []), ("b".toList, ["a".toList]), ("c".toList, []),
    ("d".toList, ["b".toList, "c".toList])]

theorem order_turns_sample :
    (Table.keys sampleQueue).Nodup ∧
    order sampleQueue = .ok ["a".toList, "c".toList, "b".toList, "d".toList] ∧
    lastPlace sampleQueue ["a".toList, "c".toList, "b".toList, "d".toList] "c".toList = -1 ∧
    lastPlace sampleQueue ["a".toList, "c".toList, "b".toList, "d".toList] "b".toList = 0 ∧
    height sampleQueue "c".toList ≤ height sampleQueue "b".toList := by
  have hnodup : (Table.keys sampleQueue).Nodup := by decide
  have horder : order sampleQueue = .ok ["a".toList, "c".toList, "b".toList, "d".toList] := by
    decide +kernel
  obtain ⟨-, hturns, -, hheight⟩ := order_turns hnodup horder
  have hc : lastPlace sampleQueue ["a".toList, "c".toList, "b".toList, "d".toList] "c".toList =
      -1 := by decide
  have hb : lastPlace sampleQueue ["a".toList, "c".toList, "b".toList, "d".toList] "b".toList =
      0 := by decide
  refine ⟨hnodup, horder, hc, hb, ?_⟩
  have hrest := (List.pairwise_cons.1 hheight).2
  exact (List.pairwise_cons.1 hrest).1 "b".toList List.mem_cons_self

end ShaderLink.Precedence
