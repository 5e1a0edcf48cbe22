import ShaderLink.Proofs.Emission

/-!
# The constraints of declarations

`Follows d c` says that `d` has to stand after `c`, and `Clash d c` that the two make each other
impossible because they use each other across modules.  `Precedence.ofDeclarations` fails exactly
if two of the given declarations clash (`ofDeclarations_eq_error`); otherwise its nodes are the
keys of the declarations, and a key waits for another one exactly if some declaration of the one
key follows one of the other (`graphOf_ofDeclarations`).
-/

namespace ShaderLink.Precedence

/-! ## Lists of steps that may fail -/

section Steps

variable {α β ε : Type} {f : α → Except ε β} {l : List α}

/-- Steps that only return something return it one after the other. -/
theorem mapM_eq_pure {M : Type → Type} [Monad M] [LawfulMonad M] {f : α → M β} {g : α → β}
    (h : ∀ a ∈ l, f a = pure (g a)) : l.mapM f = pure (l.map g) := by
  induction l with
  | nil => rfl
  | cons a l ih =>
    have ih := ih fun b hb => h b (List.mem_cons_of_mem _ hb)
    rw [List.mapM_cons, h a List.mem_cons_self, ih]
    simp

theorem mapM_eq_ok {g : α → β} (h : ∀ a ∈ l, f a = .ok (g a)) : l.mapM f = .ok (l.map g) :=
  mapM_eq_pure h

/-- If a step fails, then the first one that does decides. -/
theorem mapM_eq_error (h : ∃ a ∈ l, ∃ e, f a = .error e) :
    ∃ a ∈ l, ∃ e, f a = .error e ∧ l.mapM f = .error e := by
  induction l with
  | nil => simp at h
  | cons a l ih =>
    cases ha : f a with
    | error e =>
      refine ⟨a, List.mem_cons_self, e, ha, ?_⟩
      rw [List.mapM_cons, ha]
      rfl
    | ok b =>
      have htail : ∃ a ∈ l, ∃ e, f a = .error e := by
        obtain ⟨c, hc, e, he⟩ := h
        rcases List.mem_cons.1 hc with rfl | hc
        · simp [ha] at he
        · exact ⟨c, hc, e, he⟩
      obtain ⟨c, hc, e, he, hl⟩ := ih htail
      refine ⟨c, List.mem_cons_of_mem _ hc, e, he, ?_⟩
      rw [List.mapM_cons, ha, hl]
      rfl

end Steps

/-! ## Two declarations -/

/-- Declarations of two modules that use each other. -/
def Clash (d c : Declaration) : Prop :=
  d.uses c.id ∧ c.uses d.id ∧ d.key ≠ c.key ∧ d.path ≠ c.path

/-- `d` uses `c` and has to stand after it: they have different keys, and `c` is not one that uses
`d` as well and is declared later. -/
def Follows (d c : Declaration) : Prop :=
  d.uses c.id ∧ d.key ≠ c.key ∧ ¬ (c.uses d.id ∧ d.index < c.index)

instance (d c : Declaration) : Decidable (Clash d c) := inferInstanceAs (Decidable (_ ∧ _))

instance (d c : Declaration) : Decidable (Follows d c) := inferInstanceAs (Decidable (_ ∧ _))

theorem required_of_clash {d c : Declaration} (h : Clash d c) :
    required d c = .error (Cause.mutualDependency c.id d.id).fault := by
  obtain ⟨-, huses, hkey, hpath⟩ := h
  rw [required, if_neg hkey.symm, if_pos huses, if_pos hpath.symm]

theorem required_of_not_clash {d c : Declaration} (huses : d.uses c.id) (h : ¬ Clash d c) :
    required d c = .ok (if Follows d c then some c.key else none) := by
  unfold required Follows
  unfold Clash at h
  by_cases hkey : c.key = d.key
  · simp [hkey]
  · have hkey' : d.key ≠ c.key := Ne.symm hkey
    by_cases hback : c.uses d.id
    · have hpath : ¬ c.path ≠ d.path := fun hp => h ⟨huses, hback, hkey', hp.symm⟩
      simp only [hkey, hback, hpath, if_false, if_true, huses, hkey', ne_eq, not_false_eq_true,
        true_and, not_lt, gt_iff_lt]
      by_cases hindex : d.index < c.index
      · simp [hindex, not_le.2 hindex]
      · simp [hindex, not_lt.1 hindex]
    · simp [hkey, hback, huses, hkey']

theorem uses_iff {d : Declaration} {id : Text} :
    d.uses id = true ↔ ∃ r ∈ d.references, r.id = id := by
  simp [Declaration.uses]

theorem mem_used {all : List Declaration} {d c : Declaration} :
    c ∈ used all d ↔ c ∈ all ∧ d.uses c.id := by
  simp only [used, List.mem_flatMap, List.mem_filter, beq_iff_eq, uses_iff]
  constructor
  · rintro ⟨r, hr, hc, hid⟩
    exact ⟨hc, r, hr, hid.symm⟩
  · rintro ⟨hc, r, hr, hid⟩
    exact ⟨r, hr, hc, hid.symm⟩

/-! ## One declaration among others -/

variable {all : List Declaration}

/-- The keys before a declaration, if it clashes with none. -/
def keysBefore (all : List Declaration) (d : Declaration) : List Text :=
  (((used all d).map fun c => if Follows d c then some c.key else none).filterMap id).eraseDups

theorem mem_keysBefore {d : Declaration} {p : Text} :
    p ∈ keysBefore all d ↔ ∃ c ∈ all, Follows d c ∧ c.key = p := by
  simp only [keysBefore, List.mem_eraseDups, List.mem_filterMap, List.mem_map, id, mem_used]
  constructor
  · rintro ⟨o, ⟨c, ⟨hc, -⟩, rfl⟩, h⟩
    split at h
    · exact ⟨c, hc, ‹_›, Option.some.inj h⟩
    · cases h
  · rintro ⟨c, hc, h, rfl⟩
    exact ⟨_, ⟨c, ⟨hc, h.1⟩, rfl⟩, if_pos h⟩

theorem before_eq_ok {d : Declaration} (h : ∀ c ∈ all, ¬ Clash d c) :
    before all d = .ok (keysBefore all d) := by
  have hall : ∀ c ∈ used all d, required d c = .ok (if Follows d c then some c.key else none) := by
    intro c hc
    obtain ⟨hc, huses⟩ := mem_used.1 hc
    exact required_of_not_clash huses (h c hc)
  rw [before, mapM_eq_ok hall]
  rfl

theorem before_eq_error {d : Declaration} (h : ∃ c ∈ all, Clash d c) :
    ∃ c ∈ all, Clash d c ∧ before all d = .error (Cause.mutualDependency c.id d.id).fault := by
  have hfail : ∃ c ∈ used all d, ∃ e, required d c = .error e := by
    obtain ⟨c, hc, hclash⟩ := h
    exact ⟨c, mem_used.2 ⟨hc, hclash.1⟩, _, required_of_clash hclash⟩
  obtain ⟨c, hc, e, he, hmap⟩ := mapM_eq_error hfail
  obtain ⟨hc, huses⟩ := mem_used.1 hc
  have hclash : Clash d c := by
    by_contra hno
    simp [required_of_not_clash huses hno] at he
  rw [required_of_clash hclash] at he
  cases he
  refine ⟨c, hc, hclash, ?_⟩
  rw [before, hmap]
  rfl

/-! ## The graph -/

theorem nodup_keys_extend {g : Precedence} (hg : (Table.keys g).Nodup) (node : Text)
    (keys : List Text) : (Table.keys (g.extend node keys)).Nodup :=
  Table.nodup_keys_insert hg node _

theorem mem_keys_extend {g : Precedence} {node k : Text} {keys : List Text} :
    k ∈ Table.keys (g.extend node keys) ↔ k = node ∨ k ∈ Table.keys g :=
  Table.mem_keys_insert

theorem waits_iff_get? {g : Precedence} (hg : (Table.keys g).Nodup) {k p : Text} :
    Waits g k p ↔ p ∈ (Table.get? g k).getD [] := by
  constructor
  · rintro ⟨ps, hk, hp⟩
    rw [(Table.get?_eq_some_iff hg).2 hk]
    exact hp
  · intro h
    cases hk : Table.get? g k with
    | none => simp [hk] at h
    | some ps => exact ⟨ps, Table.mem_of_get?_eq_some hk, by simpa [hk] using h⟩

theorem waits_extend {g : Precedence} (hg : (Table.keys g).Nodup) {node k p : Text}
    {keys : List Text} :
    Waits (g.extend node keys) k p ↔ Waits g k p ∨ k = node ∧ p ∈ keys := by
  rw [waits_iff_get? (nodup_keys_extend hg node keys), waits_iff_get? hg, extend, Table.get?_insert]
  by_cases hk : k = node
  · subst hk
    simp
  · simp [hk]

/-- The graph holds the keys of `ds` and what these declarations follow among `all`. -/
structure GraphOf (all ds : List Declaration) (g : Precedence) : Prop where
  nodup : (Table.keys g).Nodup
  mem_keys : ∀ k, k ∈ Table.keys g ↔ ∃ d ∈ ds, d.key = k
  waits : ∀ k p, Waits g k p ↔ ∃ d ∈ ds, d.key = k ∧ ∃ c ∈ all, c.key = p ∧ Follows d c

theorem GraphOf.nil : GraphOf all [] [] where
  nodup := List.nodup_nil
  mem_keys k := by simp [Table.keys]
  waits k p := by simp [Waits]

theorem GraphOf.extend {ds : List Declaration} {g : Precedence} (h : GraphOf all ds g)
    (d : Declaration) : GraphOf all (ds ++ [d]) (g.extend d.key (keysBefore all d)) where
  nodup := nodup_keys_extend h.nodup _ _
  mem_keys k := by
    rw [mem_keys_extend, h.mem_keys]
    grind
  waits k p := by
    rw [waits_extend h.nodup, h.waits, mem_keysBefore]
    grind

/-- Building the graph, from what was built for the declarations before. -/
theorem foldlM_extend_eq_ok {done ds : List Declaration} {g : Precedence} (hg : GraphOf all done g)
    (h : ∀ d ∈ ds, ∀ c ∈ all, ¬ Clash d c) :
    ∃ g', ds.foldlM (fun g d => do return g.extend d.key (← before all d)) g = .ok g' ∧
      GraphOf all (done ++ ds) g' := by
  induction ds generalizing done g with
  | nil => exact ⟨g, rfl, by simpa using hg⟩
  | cons d ds ih =>
    have hd := before_eq_ok (h d List.mem_cons_self)
    obtain ⟨g', hrun, hg'⟩ := ih (hg.extend d) fun e he => h e (List.mem_cons_of_mem _ he)
    refine ⟨g', ?_, by simpa using hg'⟩
    rw [List.foldlM_cons, hd]
    exact hrun

theorem foldlM_extend_eq_error {ds : List Declaration} (g : Precedence)
    (h : ∃ d ∈ ds, ∃ c ∈ all, Clash d c) :
    ∃ d ∈ ds, ∃ c ∈ all, Clash d c ∧
      ds.foldlM (fun g d => do return g.extend d.key (← before all d)) g =
        .error (Cause.mutualDependency c.id d.id).fault := by
  induction ds generalizing g with
  | nil => simp at h
  | cons d ds ih =>
    by_cases hd : ∃ c ∈ all, Clash d c
    · obtain ⟨c, hc, hclash, he⟩ := before_eq_error hd
      refine ⟨d, List.mem_cons_self, c, hc, hclash, ?_⟩
      rw [List.foldlM_cons, he]
      rfl
    · have htail : ∃ e ∈ ds, ∃ c ∈ all, Clash e c := by
        obtain ⟨e, he, hclash⟩ := h
        rcases List.mem_cons.1 he with rfl | he
        · exact absurd hclash hd
        · exact ⟨e, he, hclash⟩
      obtain ⟨e, he, c, hc, hclash, hrun⟩ := ih (g.extend d.key (keysBefore all d)) htail
      refine ⟨e, List.mem_cons_of_mem _ he, c, hc, hclash, ?_⟩
      rw [List.foldlM_cons, before_eq_ok fun c hc hclash => hd ⟨c, hc, hclash⟩]
      exact hrun

/-- Two of the declarations clash. -/
def Clashing (ds : List Declaration) : Prop := ∃ d ∈ ds, ∃ c ∈ ds, Clash d c

/-- A declaration of the key `k` follows one of the key `p`. -/
def KeyFollows (ds : List Declaration) (k p : Text) : Prop :=
  ∃ d ∈ ds, ∃ c ∈ ds, d.key = k ∧ c.key = p ∧ Follows d c

instance (ds : List Declaration) : Decidable (Clashing ds) :=
  inferInstanceAs (Decidable (∃ d ∈ ds, ∃ c ∈ ds, Clash d c))

instance (ds : List Declaration) (k p : Text) : Decidable (KeyFollows ds k p) :=
  inferInstanceAs (Decidable (∃ d ∈ ds, ∃ c ∈ ds, d.key = k ∧ c.key = p ∧ Follows d c))

theorem ofDeclarations_eq_error {ds : List Declaration} (h : Clashing ds) :
    ∃ d ∈ ds, ∃ c ∈ ds, Clash d c ∧
      ofDeclarations ds = .error (Cause.mutualDependency c.id d.id).fault :=
  foldlM_extend_eq_error [] h

theorem graphOf_ofDeclarations {ds : List Declaration} (h : ¬ Clashing ds) :
    ∃ g, ofDeclarations ds = .ok g ∧ GraphOf ds ds g :=
  foldlM_extend_eq_ok GraphOf.nil fun d hd c hc hclash => h ⟨d, hd, c, hc, hclash⟩

theorem GraphOf.waits_iff {ds : List Declaration} {g : Precedence} (h : GraphOf ds ds g)
    (k p : Text) : Waits g k p ↔ KeyFollows ds k p := by
  rw [h.waits, KeyFollows]
  grind

theorem GraphOf.waits_eq {ds : List Declaration} {g : Precedence} (h : GraphOf ds ds g) :
    Waits g = KeyFollows ds := by
  funext k p
  exact propext (h.waits_iff k p)

end ShaderLink.Precedence
