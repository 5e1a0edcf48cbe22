import ShaderLink.Proofs.Constraints

/-!
# Sorted declarations

The outcome of `Precedence.sort` for any list of declarations.  It is a fault of the family
`cyclic` exactly if two declarations clash, otherwise one of the family `invariant` exactly if the
keys follow each other in a circle, and otherwise a rearrangement in which every key stands after
all keys that it follows (`Arranged`).
-/

namespace ShaderLink.Precedence

open Relation

/-! ## Arranging by keys -/

section Arrange

variable {order : List Text} {ds : List Declaration}

theorem mem_arrange {d : Declaration} : d ∈ arrange order ds ↔ d ∈ ds ∧ d.key ∈ order := by
  simp only [arrange, List.mem_flatMap, List.mem_filter, beq_iff_eq]
  constructor
  · rintro ⟨k, hk, hd, rfl⟩
    exact ⟨hd, hk⟩
  · rintro ⟨hd, hk⟩
    exact ⟨_, hk, hd, rfl⟩

theorem filter_arrange (ho : order.Nodup) (hds : ∀ d ∈ ds, d.key ∈ order) (k : Text) :
    (arrange order ds).filter (·.key == k) = ds.filter (·.key == k) := by
  have other : ∀ j, j ≠ k → (ds.filter (·.key == j)).filter (·.key == k) = [] := by
    intro j hj
    rw [List.filter_filter, List.filter_eq_nil_iff]
    intro d _ hd
    simp only [Bool.and_eq_true, beq_iff_eq] at hd
    exact hj (hd.2.symm.trans hd.1)
  have same : (ds.filter (·.key == k)).filter (·.key == k) = ds.filter (·.key == k) := by
    rw [List.filter_filter]
    simp
  rw [arrange, List.filter_flatMap]
  by_cases hk : k ∈ order
  · obtain ⟨l₁, l₂, rfl⟩ := List.append_of_mem hk
    rw [List.nodup_append, List.nodup_cons] at ho
    obtain ⟨-, ⟨hk₂, -⟩, hk₁⟩ := ho
    have h₁ : l₁.flatMap (fun j => (ds.filter (·.key == j)).filter (·.key == k)) = [] :=
      List.flatMap_eq_nil_iff.2 fun j hj => other j (hk₁ j hj k List.mem_cons_self)
    have h₂ : l₂.flatMap (fun j => (ds.filter (·.key == j)).filter (·.key == k)) = [] :=
      List.flatMap_eq_nil_iff.2 fun j hj => other j fun e => hk₂ (e ▸ hj)
    rw [List.flatMap_append, List.flatMap_cons, h₁, h₂, same]
    simp
  · have hnone : ds.filter (·.key == k) = [] := by
      rw [List.filter_eq_nil_iff]
      intro d hd he
      exact hk (beq_iff_eq.1 he ▸ hds d hd)
    rw [hnone]
    exact List.flatMap_eq_nil_iff.2 fun j hj => other j fun e => hk (e ▸ hj)

theorem arrange_perm (ho : order.Nodup) (hds : ∀ d ∈ ds, d.key ∈ order) :
    (arrange order ds).Perm ds := by
  rw [List.perm_iff_count]
  intro d
  have hcount : ∀ l : List Declaration, (l.filter (·.key == d.key)).count d = l.count d :=
    fun l => List.count_filter (by simp)
  rw [← hcount, filter_arrange ho hds, hcount]

/-- What holds between keys in order holds between declarations of different keys. -/
theorem pairwise_arrange {r : Text → Text → Prop} (h : order.Pairwise r) :
    (arrange order ds).Pairwise fun d e => d.key = e.key ∨ r d.key e.key := by
  have hkey : ∀ {k d}, d ∈ ds.filter (·.key == k) → d.key = k := fun hd =>
    beq_iff_eq.1 (List.mem_filter.1 hd).2
  refine List.pairwise_flatMap.2 ⟨fun k _ => ?_, h.imp fun {j k} hjk d hd e he => ?_⟩
  · exact List.pairwise_of_forall_mem_list fun d hd e he => Or.inl ((hkey hd).trans (hkey he).symm)
  · rw [hkey hd, hkey he]
    exact Or.inr hjk

theorem pairwise_idxOf_lt (ho : order.Nodup) :
    order.Pairwise fun a b => order.idxOf a < order.idxOf b := by
  rw [List.pairwise_iff_getElem]
  intro i j hi hj hij
  rwa [ho.idxOf_getElem, ho.idxOf_getElem]

/-- The places that the keys have in the order do not decrease. -/
theorem idxOf_arrange_le (ho : order.Nodup) {i j : Fin (arrange order ds).length} (hij : i ≤ j) :
    order.idxOf ((arrange order ds).get i).key ≤ order.idxOf ((arrange order ds).get j).key := by
  rcases eq_or_lt_of_le hij with rfl | hlt
  · exact le_rfl
  · have hpairs : (arrange order ds).Pairwise _ := pairwise_arrange (pairwise_idxOf_lt ho)
    rcases List.pairwise_iff_get.1 hpairs i j hlt with hkey | hplace
    · rw [hkey]
    · exact hplace.le

end Arrange

/-! ## Ordered declarations -/

/-- The list `out` holds the declarations `ds` in an order that respects what follows what. -/
structure Arranged (ds out : List Declaration) : Prop where
  perm : out.Perm ds
  /-- Declarations of one key keep their order. -/
  stable : ∀ k, out.filter (·.key == k) = ds.filter (·.key == k)
  /-- Declarations of one key stand together. -/
  adjacent : ∀ i j l : Fin out.length, i ≤ j → j ≤ l → (out.get i).key = (out.get l).key →
    (out.get j).key = (out.get i).key
  ordered : ∀ i j : Fin out.length, KeyFollows ds (out.get i).key (out.get j).key → j < i

theorem keyFollows_irrefl {ds : List Declaration} (k : Text) : ¬ KeyFollows ds k k := by
  rintro ⟨d, -, c, -, hd, hc, h⟩
  exact h.2.1 (hd.trans hc.symm)

/-- A list of nodes, no earlier one of which follows a later one. -/
theorem Settled.pairwise {g : Precedence} {l : List Text} (h : Settled g l) (hl : l.Nodup) :
    l.Pairwise fun later earlier => ¬ Waits g earlier later := by
  induction l with
  | nil => exact List.Pairwise.nil
  | cons k l ih =>
    obtain ⟨hk, hl⟩ := List.nodup_cons.1 hl
    refine List.pairwise_cons.2 ⟨fun e he hw => ?_, ih h.2 hl⟩
    exact hk (h.2.mem_of_transGen he (TransGen.single hw))

theorem arranged_arrange {ds : List Declaration} {order : List Text} (ho : order.Nodup)
    (hds : ∀ d ∈ ds, d.key ∈ order) (h : order.Pairwise fun k p => ¬ KeyFollows ds k p) :
    Arranged ds (arrange order ds) where
  perm := arrange_perm ho hds
  stable := filter_arrange ho hds
  adjacent i j l hij hjl hkey := by
    -- the key of `j` has its place between that of `i` and that of `l`, which are the same
    have hij := idxOf_arrange_le ho hij
    have hjl := idxOf_arrange_le ho hjl
    rw [← hkey] at hjl
    have hmem : ((arrange order ds).get j).key ∈ order := (mem_arrange.1 (List.get_mem _ j)).2
    exact (List.idxOf_inj hmem).1 (by omega)
  ordered i j hij := by
    by_contra hle
    rcases eq_or_lt_of_le (not_lt.1 hle) with rfl | hlt
    · exact keyFollows_irrefl _ hij
    · rcases List.pairwise_iff_get.1 (pairwise_arrange h) i j hlt with he | hno
      · rw [he] at hij
        exact keyFollows_irrefl _ hij
      · exact hno hij

/-- What uses something that is declared earlier comes after it, even if it is used in return. -/
theorem Arranged.earlier_first {ds out : List Declaration} (h : Arranged ds out)
    {i j : Fin out.length} (hkey : (out.get i).key ≠ (out.get j).key)
    (hji : (out.get j).uses (out.get i).id) (hindex : (out.get i).index < (out.get j).index) :
    i < j := by
  refine h.ordered j i ⟨out.get j, ?_, out.get i, ?_, rfl, rfl, hji, hkey.symm, ?_⟩
  · exact h.perm.mem_iff.1 (List.get_mem _ j)
  · exact h.perm.mem_iff.1 (List.get_mem _ i)
  · exact fun hback => lt_asymm hindex hback.2

/-! ## The outcome -/

/-- The result is a fault of a family. -/
def FailsWith {α : Type} (r : Except Fault α) (family : Family) : Prop :=
  ∃ fault, r = .error fault ∧ fault.cause.family = some family

theorem FailsWith.family_eq {α : Type} {r : Except Fault α} {f f' : Family} (h : FailsWith r f)
    (h' : FailsWith r f') : f = f' := by
  obtain ⟨e, he, hf⟩ := h
  obtain ⟨e', he', hf'⟩ := h'
  cases he.symm.trans he'
  exact Option.some.inj (hf.symm.trans hf')

theorem not_failsWith_ok {α : Type} (a : α) (f : Family) : ¬ FailsWith (.ok a) f := by
  rintro ⟨e, he, -⟩
  cases he

variable {ds : List Declaration}

theorem sort_of_clashing (h : Clashing ds) : FailsWith (sort ds) .cyclic := by
  obtain ⟨d, -, c, -, -, he⟩ := ofDeclarations_eq_error h
  refine ⟨(Cause.mutualDependency c.id d.id).fault, ?_, rfl⟩
  rw [sort, he]
  rfl

theorem sort_of_cycle (h : ¬ Clashing ds) (hcycle : ∃ k, TransGen (KeyFollows ds) k k) :
    FailsWith (sort ds) .invariant := by
  obtain ⟨g, hrun, hg⟩ := graphOf_ofDeclarations h
  obtain ⟨k, hk⟩ := hcycle
  rw [← hg.waits_eq] at hk
  have hkey : k ∈ Table.keys g := by
    obtain ⟨p, hp, -⟩ := TransGen.head'_iff.1 hk
    exact hp.mem_keys
  have hstuck : stuck (emitAll g) ≠ [] := by
    rw [stuck_emitAll hg.nodup]
    refine List.ne_nil_of_mem (List.mem_filter.2 ⟨hkey, ?_⟩)
    simpa using not_mem_emitted_of_cycle hg.nodup hk
  refine ⟨(Cause.stuck (stuck (emitAll g))).fault, ?_, rfl⟩
  rw [sort, hrun]
  show (do return arrange (← g.order) ds) = _
  rw [order_eq_error hstuck]
  rfl

theorem sort_of_acyclic (h : ¬ Clashing ds) (hacyclic : ∀ k, ¬ TransGen (KeyFollows ds) k k) :
    ∃ out, sort ds = .ok out ∧ Arranged ds out := by
  obtain ⟨g, hrun, hg⟩ := graphOf_ofDeclarations h
  rw [← hg.waits_eq] at hacyclic
  have hclosed : ∀ k p, Waits g k p → p ∈ Table.keys g := by
    intro k p hkp
    obtain ⟨d, -, c, hc, -, hp, -⟩ := (hg.waits_iff k p).1 hkp
    exact (hg.mem_keys p).2 ⟨c, hc, hp⟩
  have hall : ∀ k ∈ Table.keys g, k ∈ (emitAll g).emitted := by
    intro k hk
    by_contra hno
    obtain ⟨k, hk⟩ := exists_cycle_of_not_emitted hg.nodup hclosed hk hno
    exact hacyclic k hk
  have hstuck : stuck (emitAll g) = [] := by
    rw [stuck_emitAll hg.nodup, List.filter_eq_nil_iff]
    intro k hk
    simpa using hall k hk
  have hnodup := nodup_emitted_emitAll hg.nodup
  refine ⟨arrange (emitAll g).emitted.reverse ds, ?_, arranged_arrange ?_ ?_ ?_⟩
  · rw [sort, hrun]
    show (do return arrange (← g.order) ds) = _
    rw [order_eq_ok hstuck]
    rfl
  · exact List.nodup_reverse.2 hnodup
  · intro d hd
    exact List.mem_reverse.2 (hall _ ((hg.mem_keys _).2 ⟨d, hd, rfl⟩))
  · rw [List.pairwise_reverse, ← hg.waits_eq]
    exact (settled_emitAll hg.nodup).pairwise hnodup

theorem failsWith_cyclic_iff : FailsWith (sort ds) .cyclic ↔ Clashing ds := by
  refine ⟨fun hfail => ?_, sort_of_clashing⟩
  by_contra h
  by_cases hcycle : ∃ k, TransGen (KeyFollows ds) k k
  · exact absurd (hfail.family_eq (sort_of_cycle h hcycle)) (by decide)
  · obtain ⟨out, hout, -⟩ := sort_of_acyclic h (not_exists.1 hcycle)
    exact not_failsWith_ok out _ (hout ▸ hfail)

theorem failsWith_invariant_iff (h : ¬ Clashing ds) :
    FailsWith (sort ds) .invariant ↔ ∃ k, TransGen (KeyFollows ds) k k := by
  refine ⟨fun hfail => ?_, sort_of_cycle h⟩
  by_contra hcycle
  obtain ⟨out, hout, -⟩ := sort_of_acyclic h (not_exists.1 hcycle)
  exact not_failsWith_ok out _ (hout ▸ hfail)

theorem sort_eq_ok_iff :
    (∃ out, sort ds = .ok out) ↔ ¬ Clashing ds ∧ ∀ k, ¬ TransGen (KeyFollows ds) k k := by
  constructor
  · rintro ⟨out, hout⟩
    have hclash : ¬ Clashing ds := fun h => not_failsWith_ok out _ (hout ▸ sort_of_clashing h)
    refine ⟨hclash, fun k hk => ?_⟩
    exact not_failsWith_ok out _ (hout ▸ sort_of_cycle hclash ⟨k, hk⟩)
  · rintro ⟨hclash, hacyclic⟩
    obtain ⟨out, hout, -⟩ := sort_of_acyclic hclash hacyclic
    exact ⟨out, hout⟩

/-- What is sorted is arranged. -/
theorem arranged_of_sort_eq_ok {out : List Declaration} (h : sort ds = .ok out) :
    Arranged ds out := by
  obtain ⟨hclash, hacyclic⟩ := sort_eq_ok_iff.1 ⟨out, h⟩
  obtain ⟨out', hout', harranged⟩ := sort_of_acyclic hclash hacyclic
  exact Except.ok.inj (hout'.symm.trans h) ▸ harranged

/-- What becomes of any list of declarations. -/
theorem sort_outcome (ds : List Declaration) :
    (FailsWith (sort ds) .cyclic ↔ Clashing ds) ∧
    (¬ Clashing ds →
      (FailsWith (sort ds) .invariant ↔ ∃ k, TransGen (KeyFollows ds) k k)) ∧
    (¬ Clashing ds → (∀ k, ¬ TransGen (KeyFollows ds) k k) →
      ∃ out, sort ds = .ok out ∧ Arranged ds out ∧
        ∀ i j : Fin out.length, (out.get i).path = (out.get j).path →
          (out.get i).key ≠ (out.get j).key → (out.get i).uses (out.get j).id →
          (out.get j).uses (out.get i).id → (out.get i).index < (out.get j).index → i < j) := by
  refine ⟨failsWith_cyclic_iff, failsWith_invariant_iff, fun h hacyclic => ?_⟩
  obtain ⟨out, hout, harranged⟩ := sort_of_acyclic h hacyclic
  refine ⟨out, hout, harranged, fun i j _ hkey _ hji hindex => ?_⟩
  exact harranged.earlier_first hkey hji hindex

/-- A function of the module `m` with parameters of the given types. -/
def sampleFunction (name : Text) (types uses : List Text) (index : Int) : Declaration :=
  { kind := .function
    name := name
    path := "m".toList
    index := index
    definition := name
    parameters := types.zipIdx.map fun t => { name := "x".toList, type := t.1, index := t.2 }
    references := uses.map fun u => { name := u, path := "m".toList, origin := .ambient } }

/-- A function `g`, and two overloads of `f`, one of which uses the other and `g`, which uses
both. -/
def sampleOverloads : List Declaration :=
  [sampleFunction "g".toList [] ["f".toList] 40,
    sampleFunction "f".toList ["float".toList] ["f".toList, "g".toList] 20,
    sampleFunction "f".toList ["int".toList] [] 0]

theorem sort_outcome_overloads :
    ¬ Clashing sampleOverloads ∧ (∀ k, ¬ TransGen (KeyFollows sampleOverloads) k k) ∧
      ∃ out, sort sampleOverloads = .ok out ∧ Arranged sampleOverloads out := by
  have hclash : ¬ Clashing sampleOverloads := by decide
  have hout : sort sampleOverloads = .ok sampleOverloads.reverse := by decide +kernel
  have hacyclic : ∀ k, ¬ TransGen (KeyFollows sampleOverloads) k k := fun k hk =>
    not_failsWith_ok _ _ (hout ▸ ((sort_outcome sampleOverloads).2.1 hclash).2 ⟨k, hk⟩)
  obtain ⟨out, hsort, harranged, -⟩ := (sort_outcome sampleOverloads).2.2 hclash hacyclic
  exact ⟨hclash, hacyclic, out, hsort, harranged⟩

end ShaderLink.Precedence
