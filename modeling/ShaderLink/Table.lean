/-!
# Tables

A table from keys to values that keeps the order in which the keys came in; a key that is entered
again keeps its place and takes the new value.
-/

namespace ShaderLink

/-- Values by key, in the order of the first entry of each key. -/
abbrev Table (κ α : Type) := List (κ × α)

namespace Table

variable {κ α : Type} [BEq κ]

/-- The value under a key. -/
def get? (t : Table κ α) (k : κ) : Option α := t.lookup k

/-- Enters a value under a key. -/
def insert (t : Table κ α) (k : κ) (a : α) : Table κ α :=
  match t with
  | [] => [(k, a)]
  | (k', a') :: t => if k' == k then (k', a) :: t else (k', a') :: insert t k a

/-- The keys, in order. -/
def keys (t : Table κ α) : List κ := t.map Prod.fst

/-- The values, in the order of their keys. -/
def values (t : Table κ α) : List α := t.map Prod.snd

/-- Enters pairs one after the other. -/
def ofList (ps : List (κ × α)) : Table κ α := ps.foldl (fun t p => insert t p.1 p.2) []

theorem keys_insert_of_mem [LawfulBEq κ] {t : Table κ α} {k : κ} {a : α} (h : k ∈ t.keys) :
    (t.insert k a).keys = t.keys := by
  induction t with
  | nil => cases h
  | cons p t ih =>
    by_cases hp : p.1 == k
    · simp [insert, hp, keys]
    · have hk : k ∈ keys t := by
        rcases List.mem_cons.1 h with rfl | h
        · simp at hp
        · exact h
      simp only [insert, hp, Bool.false_eq_true, if_false]
      exact congrArg (p.1 :: ·) (ih hk)

theorem insert_of_not_mem [LawfulBEq κ] {t : Table κ α} {k : κ} {a : α} (h : k ∉ t.keys) :
    t.insert k a = t ++ [(k, a)] := by
  induction t with
  | nil => rfl
  | cons p t ih =>
    rw [keys, List.map_cons, List.mem_cons, not_or] at h
    have hp : (p.1 == k) = false := beq_false_of_ne (Ne.symm h.1)
    simp only [insert, hp, Bool.false_eq_true, if_false]
    exact congrArg (p :: ·) (ih h.2)

theorem keys_insert_of_not_mem [LawfulBEq κ] {t : Table κ α} {k : κ} {a : α} (h : k ∉ t.keys) :
    (t.insert k a).keys = t.keys ++ [k] := by
  induction t with
  | nil => rfl
  | cons p t ih =>
    have hp : (p.1 == k) = false := by
      refine beq_false_of_ne ?_
      rintro rfl
      exact h List.mem_cons_self
    simp only [insert, hp, Bool.false_eq_true, if_false]
    exact congrArg (p.1 :: ·) (ih fun hk => h (List.mem_cons_of_mem _ hk))

theorem get?_insert_self [LawfulBEq κ] (t : Table κ α) (k : κ) (a : α) :
    (t.insert k a).get? k = some a := by
  induction t with
  | nil => simp [insert, get?]
  | cons p t ih =>
    obtain ⟨k', a'⟩ := p
    by_cases hp : k' == k
    · obtain rfl := beq_iff_eq.1 hp
      simp [insert, get?]
    · have hk : (k == k') = false := beq_false_of_ne fun e => hp (by simp [e])
      simp only [insert, hp, Bool.false_eq_true, if_false, get?, List.lookup_cons, hk]
      exact ih

theorem get?_insert_of_ne [LawfulBEq κ] (t : Table κ α) {k k' : κ} (h : k' ≠ k) (a : α) :
    (t.insert k a).get? k' = t.get? k' := by
  have hk : (k' == k) = false := beq_false_of_ne h
  induction t with
  | nil => simp [insert, get?, List.lookup_cons, hk]
  | cons p t ih =>
    obtain ⟨j, b⟩ := p
    by_cases hp : j == k
    · obtain rfl := beq_iff_eq.1 hp
      simp [insert, get?, List.lookup_cons, hk]
    · simp only [insert, hp, Bool.false_eq_true, if_false, get?, List.lookup_cons]
      cases k' == j
      · exact ih
      · rfl

theorem get?_insert [LawfulBEq κ] [DecidableEq κ] (t : Table κ α) (k k' : κ) (a : α) :
    (t.insert k a).get? k' = if k' = k then some a else t.get? k' := by
  split
  · rename_i h
    rw [h, get?_insert_self]
  · rename_i h
    exact get?_insert_of_ne t h a

theorem nodup_keys_insert [LawfulBEq κ] {t : Table κ α} (h : t.keys.Nodup) (k : κ) (a : α) :
    (t.insert k a).keys.Nodup := by
  by_cases hk : k ∈ t.keys
  · rwa [keys_insert_of_mem hk]
  · rw [keys_insert_of_not_mem hk]
    refine List.nodup_append.2 ⟨h, List.pairwise_singleton _ k, ?_⟩
    rintro x hx y hy rfl
    exact hk (List.mem_singleton.1 hy ▸ hx)

theorem mem_keys_insert [LawfulBEq κ] {t : Table κ α} {k k' : κ} {a : α} :
    k' ∈ (t.insert k a).keys ↔ k' = k ∨ k' ∈ t.keys := by
  by_cases hk : k ∈ t.keys
  · rw [keys_insert_of_mem hk]
    exact ⟨Or.inr, fun h => h.elim (fun e => e ▸ hk) id⟩
  · rw [keys_insert_of_not_mem hk, List.mem_append, List.mem_singleton]
    exact Or.comm

theorem mem_of_mem_insert [LawfulBEq κ] {t : Table κ α} {k : κ} {a : α} {p : κ × α}
    (h : p ∈ t.insert k a) : p = (k, a) ∨ p ∈ t := by
  induction t with
  | nil => exact Or.inl (List.mem_singleton.1 h)
  | cons q t ih =>
    unfold insert at h
    split at h
    · rename_i hq
      rcases List.mem_cons.1 h with h | h
      · rw [← beq_iff_eq.1 hq]
        exact Or.inl h
      · exact Or.inr (List.mem_cons_of_mem _ h)
    · rcases List.mem_cons.1 h with h | h
      · exact Or.inr (h ▸ List.mem_cons_self)
      · exact (ih h).imp_right (List.mem_cons_of_mem _)

theorem mem_of_get?_eq_some [LawfulBEq κ] {t : Table κ α} {k : κ} {a : α}
    (h : t.get? k = some a) : (k, a) ∈ t := by
  induction t with
  | nil => cases h
  | cons p t ih =>
    obtain ⟨j, b⟩ := p
    rw [get?, List.lookup_cons] at h
    split at h
    · rename_i hj
      rw [beq_iff_eq] at hj
      cases h
      rw [hj]
      exact List.mem_cons_self
    · exact List.mem_cons_of_mem _ (ih h)

theorem get?_eq_some_iff [LawfulBEq κ] {t : Table κ α} (ht : t.keys.Nodup) {k : κ} {a : α} :
    t.get? k = some a ↔ (k, a) ∈ t := by
  refine ⟨mem_of_get?_eq_some, fun h => ?_⟩
  induction t with
  | nil => cases h
  | cons p t ih =>
    obtain ⟨hp, ht⟩ := List.nodup_cons.1 ht
    rcases List.mem_cons.1 h with rfl | h
    · simp [get?]
    · have hk : (k == p.1) = false := by
        refine beq_false_of_ne ?_
        rintro rfl
        exact hp (List.mem_map.2 ⟨(p.1, a), h, rfl⟩)
      rw [get?, List.lookup_cons, hk]
      exact ih ht h

theorem mem_of_mem_ofList [LawfulBEq κ] {ps : List (κ × α)} {p : κ × α} (h : p ∈ ofList ps) :
    p ∈ ps := by
  have hfold : ∀ (ps : List (κ × α)) (t : Table κ α),
      p ∈ ps.foldl (fun t p => insert t p.1 p.2) t → p ∈ ps ∨ p ∈ t := by
    intro ps
    induction ps with
    | nil => exact fun _ h => Or.inr h
    | cons q ps ih =>
      intro t h
      rcases ih _ h with h | h
      · exact Or.inl (List.mem_cons_of_mem _ h)
      · rcases mem_of_mem_insert h with rfl | h
        · exact Or.inl List.mem_cons_self
        · exact Or.inr h
  exact (hfold ps [] h).resolve_right List.not_mem_nil

theorem mem_keys_ofList [LawfulBEq κ] {ps : List (κ × α)} {k : κ} :
    k ∈ (ofList ps).keys ↔ k ∈ ps.map Prod.fst := by
  have hfold : ∀ (ps : List (κ × α)) (t : Table κ α),
      k ∈ keys (ps.foldl (fun t p => insert t p.1 p.2) t) ↔ k ∈ ps.map Prod.fst ∨ k ∈ t.keys := by
    intro ps
    induction ps with
    | nil => simp
    | cons p ps ih =>
      intro t
      rw [List.foldl_cons, ih, mem_keys_insert, List.map_cons, List.mem_cons, or_left_comm,
        or_assoc]
  rw [ofList, hfold]
  simp [keys]

/-- Pairs with different keys are a table. -/
theorem ofList_of_nodup [LawfulBEq κ] {ps : List (κ × α)} (h : (ps.map Prod.fst).Nodup) :
    ofList ps = ps := by
  have hfold : ∀ (ps : List (κ × α)) (t : Table κ α), (keys (t ++ ps)).Nodup →
      ps.foldl (fun t p => insert t p.1 p.2) t = t ++ ps := by
    intro ps
    induction ps with
    | nil => exact fun t _ => (List.append_nil t).symm
    | cons p ps ih =>
      intro t hnodup
      have hp : p.1 ∉ keys t := by
        intro hmem
        rw [keys, List.map_append] at hnodup
        exact (List.nodup_append.1 hnodup).2.2 _ hmem _ List.mem_cons_self rfl
      have hsplit : t ++ p :: ps = t ++ [(p.1, p.2)] ++ ps := by simp
      rw [List.foldl_cons, insert_of_not_mem hp, hsplit, ih]
      rwa [← hsplit]
  exact hfold ps [] h

theorem get?_eq_none_iff [LawfulBEq κ] {t : Table κ α} {k : κ} :
    t.get? k = none ↔ k ∉ t.keys := by
  rw [get?, List.lookup_eq_none_iff]
  simp only [keys, List.mem_map, not_exists, not_and, bne_iff_ne, ne_comm (a := k)]

/-- In a table each key has one value. -/
theorem value_unique [LawfulBEq κ] {t : Table κ α} (ht : t.keys.Nodup) {k : κ} {a b : α}
    (ha : (k, a) ∈ t) (hb : (k, b) ∈ t) : a = b :=
  Option.some.inj (((get?_eq_some_iff ht).2 ha).symm.trans ((get?_eq_some_iff ht).2 hb))

end Table

end ShaderLink
