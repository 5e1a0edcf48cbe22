import ShaderLink.Proofs.Sorting

/-!
# Cycles of dependencies

A cycle of dependencies that passes through two modules should be refused as such, and all other
declarations should be ordered (`CyclesClassified`).  `Precedence.sort` looks at pairs of
declarations only: `cyclesClassified_iff` says for which declarations that is enough.  It is always
enough for two declarations of one module that use each other, and not for the three of
`sampleRing`.
-/

namespace ShaderLink.Precedence

open Relation

/-- The listed declaration `d` uses the listed declaration `c`. -/
def DependsOn (ds : List Declaration) (d c : Declaration) : Prop := d ∈ ds ∧ c ∈ ds ∧ d.uses c.id

/-- A cycle of dependencies passes through two modules. -/
def CrossingCycle (ds : List Declaration) : Prop :=
  ∃ d c, d.key ≠ c.key ∧ d.path ≠ c.path ∧
    TransGen (DependsOn ds) d c ∧ TransGen (DependsOn ds) c d

/-- Cycles through two modules, and nothing else, keep declarations from being ordered; they are
reported as cyclic. -/
def CyclesClassified (ds : List Declaration) : Prop :=
  (FailsWith (sort ds) .cyclic ↔ CrossingCycle ds) ∧
    (¬ CrossingCycle ds → ∃ out, sort ds = .ok out)

variable {ds : List Declaration}

theorem Clashing.crossingCycle (h : Clashing ds) : CrossingCycle ds := by
  obtain ⟨d, hd, c, hc, hdc, hcd, hkey, hpath⟩ := h
  exact ⟨d, c, hkey, hpath, TransGen.single ⟨hd, hc, hdc⟩, TransGen.single ⟨hc, hd, hcd⟩⟩

theorem mem_of_transGen_dependsOn {d c : Declaration} (h : TransGen (DependsOn ds) d c) :
    d ∈ ds ∧ c ∈ ds := by
  obtain ⟨e, hde, -⟩ := TransGen.head'_iff.1 h
  obtain ⟨f, -, hfc⟩ := TransGen.tail'_iff.1 h
  exact ⟨hde.1, hfc.2.1⟩

theorem not_crossingCycle_of_path_eq {path : Text} (h : ∀ d ∈ ds, d.path = path) :
    ¬ CrossingCycle ds := by
  rintro ⟨d, c, -, hpath, hdc, -⟩
  obtain ⟨hd, hc⟩ := mem_of_transGen_dependsOn hdc
  exact hpath ((h d hd).trans (h c hc).symm)

/-- Of two declarations only one follows the other, unless they clash. -/
theorem not_keyFollows_symm (hkeys : (ds.map (·.key)).Nodup)
    (hindex : ∀ d ∈ ds, ∀ c ∈ ds, d.path = c.path → d.index = c.index → d = c)
    (h : ¬ Clashing ds) {k p : Text} (hkp : KeyFollows ds k p) : ¬ KeyFollows ds p k := by
  rintro ⟨c', hc', d', hd', hkc', hkd', hcd⟩
  obtain ⟨d, hd, c, hc, hkd, hkc, hdc⟩ := hkp
  obtain rfl : c = c' := List.inj_on_of_nodup_map hkeys hc hc' (hkc.trans hkc'.symm)
  obtain rfl : d = d' := List.inj_on_of_nodup_map hkeys hd hd' (hkd.trans hkd'.symm)
  have hpath : d.path = c.path := by
    by_contra hpath
    exact h ⟨d, hd, c, hc, hdc.1, hcd.1, hdc.2.1, hpath⟩
  have hle : c.index ≤ d.index := not_lt.1 fun hlt => hdc.2.2 ⟨hcd.1, hlt⟩
  have hge : d.index ≤ c.index := not_lt.1 fun hlt => hcd.2.2 ⟨hdc.1, hlt⟩
  exact hdc.2.1 (congrArg Declaration.key (hindex d hd c hc hpath (le_antisymm hge hle)))

/-- Looking at pairs is enough exactly if a cycle through two modules comes with two declarations
that clash, and if without such a cycle the keys do not follow each other in a circle; such a
circle has never just two keys, when the keys differ and declarations of one module stand at
different offsets. -/
theorem cyclesClassified_iff (ds : List Declaration) :
    (CyclesClassified ds ↔
      (CrossingCycle ds → Clashing ds) ∧
      (¬ CrossingCycle ds → ∀ k, ¬ TransGen (KeyFollows ds) k k)) ∧
    ((ds.map (·.key)).Nodup →
      (∀ d ∈ ds, ∀ c ∈ ds, d.path = c.path → d.index = c.index → d = c) →
      ¬ Clashing ds → ∀ k p, KeyFollows ds k p → ¬ KeyFollows ds p k) := by
  refine ⟨?_, fun hkeys hindex h k p => not_keyFollows_symm hkeys hindex h⟩
  rw [CyclesClassified, failsWith_cyclic_iff, sort_eq_ok_iff]
  constructor
  · rintro ⟨hiff, hok⟩
    exact ⟨hiff.2, fun hno => (hok hno).2⟩
  · rintro ⟨hclash, hacyclic⟩
    refine ⟨⟨Clashing.crossingCycle, hclash⟩, fun hno => ⟨?_, hacyclic hno⟩⟩
    exact fun h => hno h.crossingCycle

/-- Two functions of one module that use each other. -/
def samplePair : List Declaration :=
  [sampleFunction "f".toList [] ["g".toList] 0, sampleFunction "g".toList [] ["f".toList] 20]

theorem cyclesClassified_iff_pair :
    KeyFollows samplePair "m/g:".toList "m/f:".toList ∧
      ¬ KeyFollows samplePair "m/f:".toList "m/g:".toList :=
  ⟨by decide, (cyclesClassified_iff samplePair).2 (by decide) (by decide) (by decide) _ _
    (by decide)⟩

/-- Three functions of one module, each of which uses the next one. -/
def sampleRing : List Declaration :=
  [sampleFunction "f".toList [] ["g".toList] 0, sampleFunction "g".toList [] ["h".toList] 20,
    sampleFunction "h".toList [] ["f".toList] 40]

/-- The functions of the ring have different keys and offsets, and are not ordered. -/
theorem not_cyclesClassified_ring :
    (sampleRing.map (·.key)).Nodup ∧
    (∀ d ∈ sampleRing, ∀ c ∈ sampleRing, d.path = c.path → d.index = c.index → d = c) ∧
    ¬ CyclesClassified sampleRing := by
  refine ⟨by decide, by decide, fun h => ?_⟩
  have hpath : ∀ d ∈ sampleRing, d.path = "m".toList := by decide
  have hsort : sort sampleRing = .error (Cause.stuck (sampleRing.map (·.key))).fault := by
    decide +kernel
  obtain ⟨out, hout⟩ := h.2 (not_crossingCycle_of_path_eq hpath)
  rw [hsort] at hout
  cases hout

end ShaderLink.Precedence
