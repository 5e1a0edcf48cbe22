import Mathlib.Data.List.Induction
import Mathlib.Data.List.Nodup
import Mathlib.Data.List.Perm.Subperm
import ShaderLink.Loading
import ShaderLink.Proofs.Reading

/-!
# Trees with an entry for each key

A definition is built up entry by entry: what is entered under a new key comes last, and what is
entered under a key that is there takes the place of what was found there (`Tree.setEntry`).  In a
tree with an entry for each key (`Tree.Tidy`) no leaf is on the way to another one, and different
leaves have different paths: `Tree.Tidy.nodup_paths`.
-/

namespace ShaderLink

namespace Tree

/-! ## Entering something -/

variable {α : Type} {key : Text} {put : Tree α → Tree α} {t : Tree α}

/-- The keys at the top of a tree. -/
def keys : Tree α → List Text
  | nil => []
  | leaf key _ rest => key :: keys rest
  | branch key _ rest => key :: keys rest

/-- At each level the keys differ and none has a slash in it; there is something in each branch, and
none has the key of an index. -/
def Tidy : Tree α → Prop
  | nil => True
  | leaf key _ rest => (IsSegment key ∧ key ∉ rest.keys) ∧ Tidy rest
  | branch key inner rest =>
    (IsSegment key ∧ key ∉ rest.keys) ∧ key ≠ indexKey ∧ inner.leaves ≠ [] ∧ Tidy inner ∧ Tidy rest

/-- Enters something under a key; the key keeps its place if it has one. -/
def setEntry (key : Text) (put : Tree α → Tree α) : Tree α → Tree α
  | nil => put nil
  | leaf k a rest => if k = key then put rest else leaf k a (setEntry key put rest)
  | branch k inner rest => if k = key then put rest else branch k inner (setEntry key put rest)

theorem setLeaf_eq (key : Text) (a : α) (t : Tree α) :
    setLeaf key a t = setEntry key (leaf key a) t := by
  induction t with
  | nil => rfl
  | leaf k b rest ih => rw [setLeaf, setEntry, ih]
  | branch k inner rest _ ih => rw [setLeaf, setEntry, ih]

theorem setBranch_eq (key : Text) (inner t : Tree α) :
    setBranch key inner t = setEntry key (branch key inner) t := by
  induction t with
  | nil => rfl
  | leaf k b rest ih => rw [setBranch, setEntry, ih]
  | branch k inner' rest _ ih => rw [setBranch, setEntry, ih]

theorem mem_keys_setEntry (hput : ∀ rest : Tree α, (put rest).keys = key :: rest.keys)
    {k : Text} (h : k ∈ (setEntry key put t).keys) : k = key ∨ k ∈ t.keys := by
  induction t with
  | nil =>
    rw [setEntry, hput] at h
    exact List.mem_cons.1 h
  | leaf k' a rest ih =>
    unfold setEntry at h
    split at h
    · rw [hput] at h
      exact (List.mem_cons.1 h).imp_right (List.mem_cons_of_mem _)
    · rcases List.mem_cons.1 h with rfl | h
      · exact Or.inr List.mem_cons_self
      · exact (ih h).imp_right (List.mem_cons_of_mem _)
  | branch k' inner rest _ ih =>
    unfold setEntry at h
    split at h
    · rw [hput] at h
      exact (List.mem_cons.1 h).imp_right (List.mem_cons_of_mem _)
    · rcases List.mem_cons.1 h with rfl | h
      · exact Or.inr List.mem_cons_self
      · exact (ih h).imp_right (List.mem_cons_of_mem _)

theorem Tidy.setEntry (hkeys : ∀ rest : Tree α, (put rest).keys = key :: rest.keys)
    (hput : ∀ rest : Tree α, key ∉ rest.keys → rest.Tidy → (put rest).Tidy) (ht : t.Tidy) :
    (setEntry key put t).Tidy := by
  induction t with
  | nil => exact hput _ List.not_mem_nil ht
  | leaf k a rest ih =>
    obtain ⟨⟨hsegment, hk⟩, hrest⟩ := ht
    unfold Tree.setEntry
    split
    · rename_i h
      exact hput rest (h ▸ hk) hrest
    · rename_i h
      exact ⟨⟨hsegment, fun hmem => (mem_keys_setEntry hkeys hmem).elim h hk⟩, ih hrest⟩
  | branch k inner rest _ ih =>
    obtain ⟨⟨hsegment, hk⟩, hindex, hne, hinner, hrest⟩ := ht
    unfold Tree.setEntry
    split
    · rename_i h
      exact hput rest (h ▸ hk) hrest
    · rename_i h
      exact ⟨⟨hsegment, fun hmem => (mem_keys_setEntry hkeys hmem).elim h hk⟩, hindex, hne, hinner,
        ih hrest⟩

/-- What is entered under a new key comes last. -/
theorem setEntry_of_not_mem {entered : List (List Text × α)}
    (hput : ∀ rest : Tree α, (put rest).leaves = entered ++ rest.leaves) (hkey : key ∉ t.keys) :
    (setEntry key put t).leaves = t.leaves ++ entered := by
  induction t with
  | nil =>
    rw [setEntry, hput]
    exact List.append_nil _
  | leaf k a rest ih =>
    rw [keys, List.mem_cons, not_or] at hkey
    rw [setEntry, if_neg (Ne.symm hkey.1), leaves, leaves, ih hkey.2]
    rfl
  | branch k inner rest _ ih =>
    rw [keys, List.mem_cons, not_or] at hkey
    rw [setEntry, if_neg (Ne.symm hkey.1), leaves, leaves, ih hkey.2, List.append_assoc]

/-- No leaf comes in but those that are entered. -/
theorem setEntry_subperm {entered : List (List Text × α)}
    (hput : ∀ rest : Tree α, (put rest).leaves = entered ++ rest.leaves) :
    (setEntry key put t).leaves.Subperm (t.leaves ++ entered) := by
  induction t with
  | nil =>
    rw [setEntry, hput]
    exact (List.perm_append_comm).subperm
  | leaf k a rest ih =>
    unfold setEntry
    split
    · rw [hput]
      exact List.perm_append_comm.subperm.trans (List.sublist_cons_self _ _).subperm
    · exact (List.subperm_cons _).2 ih
  | branch k inner rest _ ih =>
    unfold setEntry
    split
    · rw [hput, leaves, List.append_assoc]
      exact List.perm_append_comm.subperm.trans (List.sublist_append_right _ _).subperm
    · rw [leaves, leaves, List.append_assoc]
      exact (List.subperm_append_left _).2 ih

section Entries

variable (key : Text) (a : α) (inner t : Tree α)

theorem leaves_setLeaf_subperm : (setLeaf key a t).leaves.Subperm (t.leaves ++ [([key], a)]) := by
  rw [setLeaf_eq]
  exact setEntry_subperm fun _ => rfl

theorem leaves_setBranch_subperm : (setBranch key inner t).leaves.Subperm
    (t.leaves ++ inner.leaves.map fun p => (key :: p.1, p.2)) := by
  rw [setBranch_eq]
  exact setEntry_subperm fun _ => rfl

variable {key t}

theorem leaves_setLeaf (h : key ∉ t.keys) :
    (setLeaf key a t).leaves = t.leaves ++ [([key], a)] := by
  rw [setLeaf_eq]
  exact setEntry_of_not_mem (fun _ => rfl) h

theorem leaves_setBranch (h : key ∉ t.keys) : (setBranch key inner t).leaves =
    t.leaves ++ inner.leaves.map fun p => (key :: p.1, p.2) := by
  rw [setBranch_eq]
  exact setEntry_of_not_mem (fun _ => rfl) h

variable {a inner} {k : Text}

theorem mem_keys_setLeaf (h : k ∈ (setLeaf key a t).keys) : k = key ∨ k ∈ t.keys := by
  rw [setLeaf_eq] at h
  exact mem_keys_setEntry (fun _ => rfl) h

theorem mem_keys_setBranch (h : k ∈ (setBranch key inner t).keys) : k = key ∨ k ∈ t.keys := by
  rw [setBranch_eq] at h
  exact mem_keys_setEntry (fun _ => rfl) h

theorem Tidy.setLeaf (ht : t.Tidy) (hkey : IsSegment key) : (setLeaf key a t).Tidy := by
  rw [setLeaf_eq]
  exact ht.setEntry (fun _ => rfl) fun _ h hrest => ⟨⟨hkey, h⟩, hrest⟩

theorem Tidy.setBranch (ht : t.Tidy) (hkey : IsSegment key) (hindex : key ≠ indexKey)
    (hinner : inner.Tidy) (hne : inner.leaves ≠ []) : (setBranch key inner t).Tidy := by
  rw [setBranch_eq]
  exact ht.setEntry (fun _ => rfl) fun _ h hrest => ⟨⟨hkey, h⟩, hindex, hne, hinner, hrest⟩

end Entries

/-! ## Where the leaves of a tree are -/

theorem exists_key_of_mem_leaves {p : List Text × α} (h : p ∈ t.leaves) :
    ∃ k ∈ t.keys, ∃ ks, p.1 = k :: ks := by
  induction t with
  | nil => cases h
  | leaf k a rest ih =>
    rcases List.mem_cons.1 h with rfl | h
    · exact ⟨k, List.mem_cons_self, [], rfl⟩
    · obtain ⟨k', hk', hks⟩ := ih h
      exact ⟨k', List.mem_cons_of_mem _ hk', hks⟩
  | branch k inner rest _ ih =>
    rcases List.mem_append.1 h with h | h
    · obtain ⟨q, -, rfl⟩ := List.mem_map.1 h
      exact ⟨k, List.mem_cons_self, q.1, rfl⟩
    · obtain ⟨k', hk', hks⟩ := ih h
      exact ⟨k', List.mem_cons_of_mem _ hk', hks⟩

theorem Tidy.leaves_ne_nil (ht : t.Tidy) (h : t.isEmpty = false) : t.leaves ≠ [] := by
  cases t with
  | nil => cases h
  | leaf k a rest => exact List.cons_ne_nil _ _
  | branch k inner rest =>
    obtain ⟨-, -, hne, -⟩ := ht
    simp [leaves, hne]

/-- No leaf is on the way to another one. -/
theorem Tidy.eq_of_isPrefix (ht : t.Tidy) {p q : List Text × α} (hp : p ∈ t.leaves)
    (hq : q ∈ t.leaves) (h : p.1 <+: q.1) : p.1 = q.1 := by
  -- a leaf of another entry begins with another key
  have hapart : ∀ {k : Text} {ks ks' : List Text} {rest : Tree α}, k ∉ rest.keys →
      (∃ k' ∈ rest.keys, ∃ ks'', ks' = k' :: ks'') → ¬ (k :: ks <+: ks' ∨ ks' <+: k :: ks) := by
    rintro k ks _ rest hk ⟨k', hk', ks'', rfl⟩ (h | h)
    · exact hk ((List.cons_prefix_cons.1 h).1 ▸ hk')
    · exact hk ((List.cons_prefix_cons.1 h).1 ▸ hk')
  induction t generalizing p q with
  | nil => cases hp
  | leaf k a rest ih =>
    obtain ⟨⟨-, hk⟩, hrest⟩ := ht
    rcases List.mem_cons.1 hp with rfl | hp <;> rcases List.mem_cons.1 hq with rfl | hq
    · rfl
    · exact absurd (Or.inl h) (hapart hk (exists_key_of_mem_leaves hq))
    · exact absurd (Or.inr h) (hapart hk (exists_key_of_mem_leaves hp))
    · exact ih hrest hp hq h
  | branch k inner rest ihinner ih =>
    obtain ⟨⟨-, hk⟩, -, -, hinner, hrest⟩ := ht
    rcases List.mem_append.1 hp with hp | hp <;> rcases List.mem_append.1 hq with hq | hq
    · obtain ⟨p', hp', rfl⟩ := List.mem_map.1 hp
      obtain ⟨q', hq', rfl⟩ := List.mem_map.1 hq
      exact congrArg (k :: ·) (ihinner hinner hp' hq' ((List.prefix_cons_inj k).1 h))
    · obtain ⟨p, hp, rfl⟩ := List.mem_map.1 hp
      exact absurd (Or.inl h) (hapart hk (exists_key_of_mem_leaves hq))
    · obtain ⟨q, hq, rfl⟩ := List.mem_map.1 hq
      exact absurd (Or.inr h) (hapart hk (exists_key_of_mem_leaves hp))
    · exact ih hrest hp hq h

/-! ## The paths of leaves -/

theorem Tidy.isSegment (ht : t.Tidy) {p : List Text × α} (hp : p ∈ t.leaves) :
    ∀ k ∈ p.1, IsSegment k := by
  induction t generalizing p with
  | nil => cases hp
  | leaf k a rest ih =>
    obtain ⟨⟨hk, -⟩, hrest⟩ := ht
    rcases List.mem_cons.1 hp with rfl | hp
    · exact fun k' hk' => List.mem_singleton.1 hk' ▸ hk
    · exact ih hrest hp
  | branch k inner rest ihinner ih =>
    obtain ⟨⟨hk, -⟩, -, -, hinner, hrest⟩ := ht
    rcases List.mem_append.1 hp with hp | hp
    · obtain ⟨q, hq, rfl⟩ := List.mem_map.1 hp
      exact List.forall_mem_cons.2 ⟨hk, ihinner hinner hq⟩
    · exact ih hrest hp

/-- The key of an index is nowhere but at a leaf. -/
theorem Tidy.ne_indexKey (ht : t.Tidy) {p : List Text × α} (hp : p ∈ t.leaves) :
    ∀ k ∈ p.1.dropLast, k ≠ indexKey := by
  induction t generalizing p with
  | nil => cases hp
  | leaf k a rest ih =>
    rcases List.mem_cons.1 hp with rfl | hp
    · exact fun k' hk' => absurd hk' List.not_mem_nil
    · exact ih ht.2 hp
  | branch k inner rest ihinner ih =>
    obtain ⟨-, hk, -, hinner, hrest⟩ := ht
    rcases List.mem_append.1 hp with hp | hp
    · obtain ⟨q, hq, rfl⟩ := List.mem_map.1 hp
      obtain ⟨k', -, ks, hks⟩ := exists_key_of_mem_leaves hq
      rw [List.dropLast_cons_of_ne_nil (by simp [hks])]
      exact List.forall_mem_cons.2 ⟨hk, ihinner hinner hq⟩
    · exact ih hrest hp

theorem pathOf_eq_foldl_idOf (base : Text) (ks : List Text) :
    pathOf base ks = (ks.filter (· ≠ indexKey)).foldl idOf base := by
  induction ks generalizing base with
  | nil => rfl
  | cons k ks ih =>
    rw [pathOf, List.foldl_cons, ← pathOf, ih, child]
    by_cases hk : k = indexKey
    · simp [hk]
    · simp [hk]

theorem join_eq_foldl_idOf (base : Text) (ks : List Text) :
    Text.join ['/'] (base :: ks) = ks.foldl idOf base := by
  induction ks generalizing base with
  | nil => simp [Text.join, List.intercalate]
  | cons k ks ih =>
    rw [List.foldl_cons, ← ih, idOf]
    cases ks <;> simp [Text.join, List.intercalate]

theorem length_le_foldl_idOf (base : Text) (ks : List Text) :
    base.length ≤ (ks.foldl idOf base).length := by
  induction ks generalizing base with
  | nil => exact le_rfl
  | cons k ks ih =>
    refine le_trans ?_ (ih (idOf base k))
    rw [idOf, List.length_append]
    exact Nat.le_add_right _ _

theorem foldl_idOf_inj {base : Text} {ks ks' : List Text} (hks : ∀ k ∈ ks, IsSegment k)
    (hks' : ∀ k ∈ ks', IsSegment k) (h : ks.foldl idOf base = ks'.foldl idOf base) : ks = ks' := by
  -- a path with another segment is longer than the one that it begins with
  have hne : ∀ (ks : List Text) (k : Text), base ≠ idOf (ks.foldl idOf base) k := by
    intro ks k heq
    have hlength := congrArg List.length heq
    have hle := length_le_foldl_idOf base ks
    rw [idOf, List.length_append, List.length_cons] at hlength
    omega
  induction ks using List.reverseRecOn generalizing ks' with
  | nil =>
    rcases List.eq_nil_or_concat' ks' with rfl | ⟨ks', k', rfl⟩
    · rfl
    · rw [List.foldl_concat] at h
      exact absurd h (hne ks' k')
  | append_singleton ks k ih =>
    rcases List.eq_nil_or_concat' ks' with rfl | ⟨ks', k', rfl⟩
    · rw [List.foldl_concat] at h
      exact absurd h.symm (hne ks k)
    · rw [List.foldl_concat, List.foldl_concat] at h
      rw [List.forall_mem_append] at hks hks'
      obtain ⟨hpath, rfl⟩ := idOf_inj (hks.2 k List.mem_cons_self) (hks'.2 k' List.mem_cons_self) h
      rw [ih hks.1 hks'.1 hpath]

theorem Tidy.nodup_leaves (ht : t.Tidy) : (t.leaves.map Prod.fst).Nodup := by
  induction t with
  | nil => exact List.nodup_nil
  | leaf k a rest ih =>
    obtain ⟨⟨-, hk⟩, hrest⟩ := ht
    refine List.nodup_cons.2 ⟨fun hmem => ?_, ih hrest⟩
    obtain ⟨p, hp, heq⟩ := List.mem_map.1 hmem
    obtain ⟨k', hk', ks, hks⟩ := exists_key_of_mem_leaves hp
    obtain rfl := (List.cons.inj (hks.symm.trans heq)).1
    exact hk hk'
  | branch k inner rest ihinner ih =>
    obtain ⟨⟨-, hk⟩, -, -, hinner, hrest⟩ := ht
    rw [leaves, List.map_append, List.map_map]
    refine List.nodup_append.2 ⟨?_, ih hrest, ?_⟩
    · have hcons : (Prod.fst ∘ fun p : List Text × α => (k :: p.1, p.2)) =
          (k :: ·) ∘ Prod.fst := rfl
      rw [hcons, ← List.map_map]
      exact (ihinner hinner).map (List.cons_injective)
    · rintro ks hks ks' hks' rfl
      obtain ⟨p, -, rfl⟩ := List.mem_map.1 hks
      obtain ⟨q, hq, heq⟩ := List.mem_map.1 hks'
      obtain ⟨k', hk', ks', hks'⟩ := exists_key_of_mem_leaves hq
      obtain rfl := (List.cons.inj (hks'.symm.trans heq)).1
      exact hk hk'

/-- Different leaves have different paths. -/
theorem Tidy.nodup_paths (ht : t.Tidy) (base : Text) :
    (t.leaves.map fun p => pathOf base p.1).Nodup := by
  have hindex : ∀ p ∈ t.leaves, p.1.filter (· ≠ indexKey) = p.1 ∨
      p.1 = p.1.filter (· ≠ indexKey) ++ [indexKey] := by
    intro p hp
    obtain ⟨k, -, ks, hks⟩ := exists_key_of_mem_leaves hp
    have hne : p.1 ≠ [] := by simp [hks]
    have hinit : p.1.dropLast.filter (· ≠ indexKey) = p.1.dropLast :=
      List.filter_eq_self.2 fun k hk => by simpa using ht.ne_indexKey hp k hk
    rw [← List.dropLast_append_getLast hne, List.filter_append, hinit]
    by_cases hlast : p.1.getLast hne = indexKey
    · exact Or.inr (by simp [hlast])
    · exact Or.inl (by simp [hlast])
  have hroutes := List.Nodup.of_map Prod.fst ht.nodup_leaves
  refine hroutes.map_on fun p hp q hq heq => ?_
  rw [pathOf_eq_foldl_idOf, pathOf_eq_foldl_idOf] at heq
  have hsegments : ∀ p ∈ t.leaves, ∀ k ∈ p.1.filter (· ≠ indexKey), IsSegment k :=
    fun p hp k hk => ht.isSegment hp k (List.mem_of_mem_filter hk)
  have hfilter := foldl_idOf_inj (hsegments p hp) (hsegments q hq) heq
  refine List.inj_on_of_nodup_map ht.nodup_leaves hp hq ?_
  rcases hindex p hp with h | h <;> rcases hindex q hq with h' | h'
  · rw [← h, hfilter, h']
  · exact ht.eq_of_isPrefix hp hq ⟨[indexKey], by rw [← h, hfilter, ← h']⟩
  · exact (ht.eq_of_isPrefix hq hp ⟨[indexKey], by rw [← h', ← hfilter, ← h]⟩).symm
  · rw [h, hfilter, ← h']

end Tree

end ShaderLink
