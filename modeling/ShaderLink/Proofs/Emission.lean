import Mathlib.Data.Fintype.EquivFin
import Mathlib.Data.List.Nodup
import Mathlib.Data.Set.Finite.List
import Mathlib.Order.WellFounded
import ShaderLink.Precedence

/-!
# The run of the emission

What `Precedence.emit` keeps true from one emitted node to the next (`Emission.Sound`), and what
that means at the end of a run: the emitted nodes are those whose predecessors are all emitted
(`mem_emitted_emitAll`), each stands after its predecessors (`settled_emitAll`), and every other
node is reported, in the order of the graph (`stuck_emitAll`).  A node on a cycle is never emitted
(`not_mem_emitted_of_cycle`), and when every predecessor is a node of the graph then something is
left only because of a cycle (`exists_cycle_of_not_emitted`).
-/

namespace ShaderLink.Precedence

open Relation

/-- The node `k` waits for `p` in the graph. -/
def Waits (g : Precedence) (k p : Text) : Prop := ∃ ps, (k, ps) ∈ g ∧ p ∈ ps

theorem Waits.mem_keys {g : Precedence} {k p : Text} (h : Waits g k p) : k ∈ Table.keys g := by
  obtain ⟨ps, hk, -⟩ := h
  exact List.mem_map_of_mem hk

theorem waits_iff_of_mem {g : Precedence} (hg : (Table.keys g).Nodup) {k p : Text} {ps : List Text}
    (h : (k, ps) ∈ g) : Waits g k p ↔ p ∈ ps := by
  refine ⟨?_, fun hp => ⟨ps, h, hp⟩⟩
  rintro ⟨qs, hk, hp⟩
  rwa [Table.value_unique hg h hk]

/-! ## One step -/

/-- Every node of the list stands before its predecessors, all of which are in the list: emitted
nodes, the last first. -/
def Settled (g : Precedence) : List Text → Prop
  | [] => True
  | k :: earlier => (∀ p, Waits g k p → p ∈ earlier) ∧ Settled g earlier

/-- What holds of an emission at all times. -/
structure Emission.Sound (g : Precedence) (e : Emission) : Prop where
  waiting : e.waiting = g.map fun p => (p.1, p.2.filter (· ∉ e.emitted))
  nodup : (e.emitted ++ e.ready).Nodup
  mem_iff : ∀ k, k ∈ e.emitted ++ e.ready ↔ k ∈ Table.keys g ∧ ∀ p, Waits g k p → p ∈ e.emitted
  settled : Settled g e.emitted

/-- The nodes that are ready from the start. -/
def started (g : Precedence) : Emission :=
  { waiting := g, ready := Table.keys (g.filter (·.2.isEmpty)), emitted := [] }

theorem mem_keys_filter_isEmpty {g : Precedence} (hg : (Table.keys g).Nodup) (k : Text) :
    k ∈ Table.keys (g.filter (·.2.isEmpty)) ↔ k ∈ Table.keys g ∧ ∀ p, ¬ Waits g k p := by
  constructor
  · intro h
    obtain ⟨⟨k, ps⟩, hk, rfl⟩ := List.mem_map.1 h
    obtain ⟨hk, hps⟩ := List.mem_filter.1 hk
    obtain rfl : ps = [] := List.isEmpty_iff.1 hps
    exact ⟨List.mem_map_of_mem hk, fun p hp => by simpa using (waits_iff_of_mem hg hk).1 hp⟩
  · rintro ⟨h, hno⟩
    obtain ⟨⟨k, ps⟩, hk, rfl⟩ := List.mem_map.1 h
    have hps : ps = [] := List.eq_nil_iff_forall_not_mem.2 fun p hp => hno p ⟨ps, hk, hp⟩
    exact List.mem_map_of_mem (List.mem_filter.2 ⟨hk, by simp [hps]⟩)

theorem sound_started {g : Precedence} (hg : (Table.keys g).Nodup) : (started g).Sound g where
  waiting := by simp [started]
  nodup := by
    simp only [started, List.nil_append]
    exact hg.sublist (List.filter_sublist.map _)
  mem_iff k := by
    simpa [started] using mem_keys_filter_isEmpty hg k
  settled := trivial

/-- The emission after its first ready node. -/
def next (e : Emission) (node : Text) (ready : List Text) : Emission :=
  { waiting := e.waiting.map (strike node)
    ready := ready ++ released node e.waiting
    emitted := node :: e.emitted }

theorem mem_released {g : Precedence} {e : Emission} (he : e.Sound g) (hg : (Table.keys g).Nodup)
    {node : Text} (hnode : node ∉ e.emitted) (k : Text) :
    k ∈ released node e.waiting ↔
      Waits g k node ∧ ∀ p, Waits g k p → p ∈ node :: e.emitted := by
  have left : ∀ ps : List Text, ((strike node (k, ps.filter (· ∉ e.emitted))).2.isEmpty = true) ↔
      ∀ p ∈ ps, p ∈ node :: e.emitted := by
    intro ps
    simp only [strike, List.isEmpty_iff, List.filter_eq_nil_iff, List.mem_filter, List.mem_cons]
    grind
  rw [released, he.waiting]
  constructor
  · intro h
    obtain ⟨p, hp, rfl⟩ := List.mem_map.1 h
    obtain ⟨hp, hc⟩ := List.mem_filter.1 hp
    obtain ⟨⟨k, ps⟩, hk, rfl⟩ := List.mem_map.1 hp
    simp only [Bool.and_eq_true, List.contains_eq_mem, decide_eq_true_eq, List.mem_filter] at hc
    refine ⟨⟨ps, hk, hc.1.1⟩, fun p hp => ?_⟩
    exact (left ps).1 hc.2 p ((waits_iff_of_mem hg hk).1 hp)
  · rintro ⟨⟨ps, hk, hn⟩, hall⟩
    refine List.mem_map.2 ⟨(k, ps.filter (· ∉ e.emitted)), List.mem_filter.2 ⟨?_, ?_⟩, rfl⟩
    · exact List.mem_map.2 ⟨(k, ps), hk, rfl⟩
    · simp only [Bool.and_eq_true, List.contains_eq_mem, decide_eq_true_eq, List.mem_filter]
      exact ⟨⟨hn, hnode⟩, (left ps).2 fun p hp => hall p ⟨ps, hk, hp⟩⟩

theorem nodup_released {g : Precedence} {e : Emission} (he : e.Sound g)
    (hg : (Table.keys g).Nodup) (node : Text) : (released node e.waiting).Nodup := by
  have hk : Table.keys e.waiting = Table.keys g := by
    simp [he.waiting, Table.keys, Function.comp_def]
  exact (hk ▸ hg).sublist (List.filter_sublist.map _)

/-- Emitting the next ready node keeps an emission sound. -/
theorem Emission.Sound.next {g : Precedence} {e : Emission} (he : e.Sound g)
    (hg : (Table.keys g).Nodup) {node : Text} {ready : List Text} (hr : e.ready = node :: ready) :
    (next e node ready).Sound g := by
  have hnd := he.nodup
  rw [hr, List.nodup_append] at hnd
  obtain ⟨hemitted, hready, hdisjoint⟩ := hnd
  obtain ⟨hnode, hready⟩ := List.nodup_cons.1 hready
  have hnew : node ∉ e.emitted := fun h => hdisjoint node h node List.mem_cons_self rfl
  have hwaits : ∀ p, Waits g node p → p ∈ e.emitted :=
    ((he.mem_iff node).1 (by simp [hr])).2
  -- what is released now was waiting for `node`, so it was neither emitted nor ready before
  have hold : ∀ k, k ∈ e.emitted ++ node :: ready → k ∉ released node e.waiting := by
    intro k hk hrel
    rw [← hr] at hk
    exact hnew (((he.mem_iff k).1 hk).2 node ((mem_released he hg hnew k).1 hrel).1)
  refine ⟨?_, ?_, fun k => ?_, hwaits, he.settled⟩
  · simp only [Precedence.next, he.waiting, List.map_map]
    refine List.map_congr_left fun p _ => ?_
    simp only [Function.comp, strike, List.filter_filter, List.mem_cons]
    congr 2
    funext q
    by_cases hq : q = node <;> simp [hq]
  · simp only [Precedence.next]
    rw [← List.append_assoc, List.nodup_append]
    refine ⟨?_, nodup_released he hg node, ?_⟩
    · rw [List.cons_append, List.nodup_cons, List.mem_append, List.nodup_append]
      refine ⟨by simp [hnew, hnode], hemitted, hready, fun a ha b hb => ?_⟩
      exact hdisjoint a ha b (List.mem_cons_of_mem _ hb)
    · rintro a ha b hb rfl
      refine hold a ?_ hb
      simp only [List.mem_append, List.mem_cons] at ha ⊢
      tauto
  · have hk := he.mem_iff k
    simp only [hr, List.mem_append, List.mem_cons] at hk
    simp only [Precedence.next, List.mem_append, List.mem_cons, mem_released he hg hnew]
    constructor
    · rintro ((rfl | h) | h | ⟨hn, h⟩)
      · exact ⟨(hk.1 (by simp)).1, fun p hp => Or.inr (hwaits p hp)⟩
      · obtain ⟨hm, h⟩ := hk.1 (Or.inl h)
        exact ⟨hm, fun p hp => Or.inr (h p hp)⟩
      · obtain ⟨hm, h⟩ := hk.1 (Or.inr (Or.inr h))
        exact ⟨hm, fun p hp => Or.inr (h p hp)⟩
      · exact ⟨hn.mem_keys, fun p hp => by simpa using h p hp⟩
    · rintro ⟨hm, h⟩
      by_cases hn : Waits g k node
      · exact Or.inr (Or.inr ⟨hn, fun p hp => by simpa using h p hp⟩)
      · have := hk.2 ⟨hm, fun p hp => (h p hp).resolve_left (fun e => hn (e ▸ hp))⟩
        tauto

/-! ## A whole run -/

theorem emit_sound {g : Precedence} (hg : (Table.keys g).Nodup) (fuel : Nat) {e : Emission}
    (he : e.Sound g) : (emit fuel e).Sound g := by
  induction fuel generalizing e with
  | zero => exact he
  | succ fuel ih =>
    rw [emit]
    split
    · exact he
    · rename_i node ready hr
      exact ih (he.next hg hr)

/-- There are no more emitted and ready nodes than nodes. -/
theorem Emission.Sound.length_le {g : Precedence} {e : Emission} (he : e.Sound g) :
    e.emitted.length + e.ready.length ≤ g.length := by
  have hsub : e.emitted ++ e.ready ⊆ Table.keys g := fun k hk => ((he.mem_iff k).1 hk).1
  have := (he.nodup.subperm hsub).length_le
  simpa [Table.keys] using this

/-- A run with enough fuel ends with no node ready. -/
theorem ready_emit {g : Precedence} (hg : (Table.keys g).Nodup) (fuel : Nat) {e : Emission}
    (he : e.Sound g) (hfuel : g.length ≤ e.emitted.length + fuel) : (emit fuel e).ready = [] := by
  induction fuel generalizing e with
  | zero =>
    have := he.length_le
    exact List.eq_nil_of_length_eq_zero (by simp only [emit]; omega)
  | succ fuel ih =>
    rw [emit]
    split
    · assumption
    · rename_i node ready hr
      refine ih (he.next hg hr) ?_
      simp only [List.length_cons]
      omega

theorem sound_emitAll {g : Precedence} (hg : (Table.keys g).Nodup) : (emitAll g).Sound g :=
  emit_sound hg _ (sound_started hg)

theorem ready_emitAll {g : Precedence} (hg : (Table.keys g).Nodup) : (emitAll g).ready = [] :=
  ready_emit hg _ (sound_started hg) (by simp)

theorem nodup_emitted_emitAll {g : Precedence} (hg : (Table.keys g).Nodup) :
    (emitAll g).emitted.Nodup := by
  have := (sound_emitAll hg).nodup
  rwa [ready_emitAll hg, List.append_nil] at this

/-- At the end the emitted nodes are those whose predecessors are all emitted. -/
theorem mem_emitted_emitAll {g : Precedence} (hg : (Table.keys g).Nodup) (k : Text) :
    k ∈ (emitAll g).emitted ↔
      k ∈ Table.keys g ∧ ∀ p, Waits g k p → p ∈ (emitAll g).emitted := by
  have := (sound_emitAll hg).mem_iff k
  rwa [ready_emitAll hg, List.append_nil] at this

theorem settled_emitAll {g : Precedence} (hg : (Table.keys g).Nodup) :
    Settled g (emitAll g).emitted :=
  (sound_emitAll hg).settled

/-- What is left at the end are the nodes that were not emitted, in the order of the graph. -/
theorem stuck_emitAll {g : Precedence} (hg : (Table.keys g).Nodup) :
    stuck (emitAll g) = (Table.keys g).filter (· ∉ (emitAll g).emitted) := by
  have hw := (sound_emitAll hg).waiting
  rw [stuck, hw, Table.keys, Table.keys, List.filter_map, List.filter_map, List.map_map]
  refine congrArg (List.map Prod.fst) (List.filter_congr ?_)
  rintro ⟨k, ps⟩ hk
  have hmem := mem_emitted_emitAll hg k
  have hkey : k ∈ Table.keys g := List.mem_map_of_mem hk
  simp only [waits_iff_of_mem hg hk, hkey, true_and] at hmem
  rw [Function.comp, Bool.eq_iff_iff, Function.comp]
  simp [hmem]

/-! ## Cycles -/

/-- What settled nodes wait for, directly or not, is among them. -/
theorem Settled.mem_of_transGen {g : Precedence} {l : List Text} (h : Settled g l) {k p : Text}
    (hk : k ∈ l) (hp : TransGen (Waits g) k p) : p ∈ l := by
  have one : ∀ {l : List Text}, Settled g l → ∀ {k p}, k ∈ l → Waits g k p → p ∈ l := by
    intro l h k p hk hp
    induction l with
    | nil => cases hk
    | cons a l ih =>
      rcases List.mem_cons.1 hk with rfl | hk
      · exact List.mem_cons_of_mem _ (h.1 p hp)
      · exact List.mem_cons_of_mem _ (ih h.2 hk)
  induction hp with
  | single hp => exact one h hk hp
  | tail _ hp ih => exact one h ih hp

theorem Settled.not_cycle {g : Precedence} {l : List Text} (h : Settled g l) (hl : l.Nodup)
    {k : Text} (hk : k ∈ l) : ¬ TransGen (Waits g) k k := by
  induction l with
  | nil => cases hk
  | cons a l ih =>
    obtain ⟨ha, hl⟩ := List.nodup_cons.1 hl
    rcases List.mem_cons.1 hk with rfl | hk
    · -- the predecessors of the last node are all earlier, and from there no way leads to it
      intro hcycle
      obtain ⟨p, hp, hcycle⟩ := TransGen.head'_iff.1 hcycle
      have hpl := h.1 p hp
      rcases reflTransGen_iff_eq_or_transGen.1 hcycle with rfl | hcycle
      · exact ha hpl
      · exact ha (h.2.mem_of_transGen hpl hcycle)
    · exact ih h.2 hl hk

theorem not_mem_emitted_of_cycle {g : Precedence} (hg : (Table.keys g).Nodup) {k : Text}
    (h : TransGen (Waits g) k k) : k ∉ (emitAll g).emitted := fun hk =>
  (settled_emitAll hg).not_cycle (nodup_emitted_emitAll hg) hk h

/-- Among finitely many things each of which leads to another one, something leads to itself. -/
theorem exists_transGen_self {α : Type} {r : α → α → Prop} {l : List α} (hl : l ≠ [])
    (h : ∀ a ∈ l, ∃ b ∈ l, r a b) : ∃ a ∈ l, TransGen r a a := by
  by_contra hno
  push Not at hno
  let R : {a // a ∈ l} → {a // a ∈ l} → Prop := fun b a => TransGen r a.1 b.1
  have : Finite {a // a ∈ l} := (List.finite_toSet l).to_subtype
  have : IsTrans {a // a ∈ l} R := ⟨fun _ _ _ hab hbc => hbc.trans hab⟩
  have : Std.Irrefl R := ⟨fun a ha => hno a.1 a.2 ha⟩
  have wf : WellFounded R := Finite.wellFounded_of_trans_of_irrefl R
  obtain ⟨a, ha⟩ := List.exists_mem_of_ne_nil l hl
  obtain ⟨m, -, hm⟩ := wf.has_min Set.univ ⟨⟨a, ha⟩, trivial⟩
  obtain ⟨b, hb, hr⟩ := h m.1 m.2
  exact hm ⟨b, hb⟩ trivial (TransGen.single hr)

/-- If every predecessor is a node, then a node is left only because of a cycle. -/
theorem exists_cycle_of_not_emitted {g : Precedence} (hg : (Table.keys g).Nodup)
    (hclosed : ∀ k p, Waits g k p → p ∈ Table.keys g) {k : Text} (hk : k ∈ Table.keys g)
    (h : k ∉ (emitAll g).emitted) : ∃ k, TransGen (Waits g) k k := by
  have hne : stuck (emitAll g) ≠ [] := by
    rw [stuck_emitAll hg]
    exact List.ne_nil_of_mem (List.mem_filter.2 ⟨hk, by simpa using h⟩)
  obtain ⟨a, -, ha⟩ := exists_transGen_self (r := Waits g) hne fun a ha => by
    rw [stuck_emitAll hg, List.mem_filter, decide_eq_true_eq, mem_emitted_emitAll hg] at ha
    obtain ⟨hak, hleft⟩ := ha
    simp only [hak, true_and, not_forall] at hleft
    obtain ⟨b, hab, hb⟩ := hleft
    refine ⟨b, ?_, hab⟩
    rw [stuck_emitAll hg]
    exact List.mem_filter.2 ⟨hclosed a b hab, by simpa using hb⟩
  exact ⟨a, ha⟩

/-! ## The order -/

theorem order_eq_ok {g : Precedence} (h : stuck (emitAll g) = []) :
    order g = .ok (emitAll g).emitted.reverse := by
  rw [order, h]

theorem order_eq_error {g : Precedence} (h : stuck (emitAll g) ≠ []) :
    order g = .error (Cause.stuck (stuck (emitAll g))).fault := by
  rw [order]
  split
  · contradiction
  · rename_i hs
    rw [hs]

end ShaderLink.Precedence
