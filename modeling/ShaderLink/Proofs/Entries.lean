import ShaderLink.Proofs.Statements

/-!
# The import statements for uses

A use is taken apart at its dots: the last word is imported from the module that the words between
the first and the last one name (`moduleOf_use`).  The statements that are written have one entry
for each use (`entries_importsOf`).
-/

namespace ShaderLink.Namespaces

open Text Pattern

variable {name path use t : Text} {uses : List Text}

/-! ## Taking a use apart -/

theorem dot_not_mem {w : Text} (hw : IsIdentifier w) : '.' ∉ w := fun h =>
  absurd (hw.2 _ h) (by decide)

theorem join_dots (w : Text) (ws : List Text) : Text.join ['.'] (w :: ws) = w ++ dotted ws := by
  induction ws generalizing w with
  | nil => simp [Text.join, List.intercalate]
  | cons v ws ih =>
    rw [join_cons, if_neg (List.cons_ne_nil v ws), ih, dotted_cons]
    rfl

theorem split_dotted {ws : List Text} (hws : ∀ w ∈ ws, '.' ∉ w) {w : Text} (hw : '.' ∉ w) :
    (w ++ dotted ws).split '.' = w :: ws := by
  rw [← join_dots]
  exact split_join (List.cons_ne_nil w ws) (List.forall_mem_cons.2 ⟨hw, hws⟩)

/-- The name that a use refers to. -/
def nameOf (use : Text) : Text := (use.split '.').getLast?.getD []

/-- The use names the declaration `n` of the module that `cs` leads to from the namespace. -/
def Names (name : Text) (cs : List Text) (n use : Text) : Prop :=
  (∀ w ∈ cs, IsIdentifier w) ∧ IsIdentifier n ∧ use = Text.join ['.'] (name :: (cs ++ [n]))

theorem IsUse.exists_names (h : IsUse name use) : ∃ cs n, Names name cs n use := by
  obtain ⟨ws, hne, hws, rfl⟩ := h
  obtain ⟨cs, n, rfl⟩ := (List.eq_nil_or_concat ws).resolve_left hne
  rw [List.concat_eq_append] at hws ⊢
  exact ⟨cs, n, fun w hw => hws w (List.mem_append_left _ hw), hws n (by simp), (join_dots ..).symm⟩

theorem Names.split_eq (hname : IsIdentifier name) {cs : List Text} {n : Text}
    (h : Names name cs n use) : use.split '.' = name :: (cs ++ [n]) := by
  obtain ⟨hcs, hn, rfl⟩ := h
  rw [join_dots]
  refine split_dotted (fun w hw => ?_) (dot_not_mem hname)
  rcases List.mem_append.1 hw with hw | hw
  · exact dot_not_mem (hcs w hw)
  · exact List.mem_singleton.1 hw ▸ dot_not_mem hn

theorem Names.moduleOf_eq (hname : IsIdentifier name) {cs : List Text} {n : Text}
    (h : Names name cs n use) (path : Text) :
    moduleOf path use = Text.join ['/'] (path :: cs) := by
  rw [moduleOf, h.split_eq hname, List.drop_one, List.tail_cons, List.dropLast_concat]

theorem Names.nameOf_eq (hname : IsIdentifier name) {cs : List Text} {n : Text}
    (h : Names name cs n use) : nameOf use = n := by
  rw [nameOf, h.split_eq hname, ← List.cons_append, List.getLast?_concat]
  rfl

/-! ## Entries by module -/

/-- The entries with the paths of their modules. -/
def entries (imports : List (Text × List (Text × Text))) : List (Text × Text × Text) :=
  imports.flatMap fun i => i.2.map fun e => (i.1, e)

/-- The entries by module, for the uses of a namespace, before they are written. -/
def importsOf (path : Text) (uses : List Text) : Table Text (List (Text × Text)) :=
  uses.foldl (fun t use =>
    let target := moduleOf path use
    t.insert target ((t.get? target).getD [] ++ [(nameOf use, aliasOf use)])) []

section Table

variable {κ α β : Type} [BEq κ] (f : α → β)

theorem insert_map (t : Table κ α) (k : κ) (a : α) :
    Table.insert (t.map (Prod.map id f)) k (f a) = (t.insert k a).map (Prod.map id f) := by
  induction t with
  | nil => rfl
  | cons p t ih =>
    obtain ⟨j, b⟩ := p
    by_cases hj : (j == k) = true
    · simp [Table.insert, hj]
    · simpa [Table.insert, hj] using ih

theorem get?_map (t : Table κ α) (k : κ) :
    Table.get? (t.map (Prod.map id f)) k = (t.get? k).map f := by
  induction t with
  | nil => rfl
  | cons p t ih =>
    obtain ⟨j, b⟩ := p
    simp only [Table.get?, List.map_cons, Prod.map, List.lookup_cons, id]
    cases k == j
    · exact ih
    · rfl

end Table

/-- What is written are the entries. -/
theorem entriesByModule_eq (path : Text) (uses : List Text) : entriesByModule path uses =
    (importsOf path uses).map (Prod.map id fun es => es.map entryText) := by
  have hfold : ∀ (uses : List Text) (t : Table Text (List (Text × Text))),
      uses.foldl (fun (t : Table Text (List Text)) u =>
        let target := moduleOf path u
        t.insert target ((t.get? target).getD [] ++ [entryOf u]))
          (t.map (Prod.map id fun es => es.map entryText)) =
      (uses.foldl (fun (t : Table Text (List (Text × Text))) use =>
        let target := moduleOf path use
        t.insert target ((t.get? target).getD [] ++ [(nameOf use, aliasOf use)])) t).map
          (Prod.map id fun es => es.map entryText) := by
    intro uses
    induction uses with
    | nil => exact fun _ => rfl
    | cons use uses ih =>
      intro t
      have hstep : (((t.get? (moduleOf path use)).map fun es => es.map entryText).getD [] ++
          [entryOf use]) = ((t.get? (moduleOf path use)).getD [] ++
            [(nameOf use, aliasOf use)]).map entryText := by
        cases t.get? (moduleOf path use) <;> simp [entryText, entryOf, nameOf]
      rw [List.foldl_cons, List.foldl_cons, ← ih]
      simp only [get?_map, hstep]
      rw [insert_map]
  exact hfold uses []

theorem join_blocks_eq (path : Text) (uses : List Text) :
    Text.join ['\n'] ((entriesByModule path uses).map block) = blocks (importsOf path uses) := by
  rw [entriesByModule_eq, blocks, List.map_map]
  rfl

theorem entries_insert {t : Table Text (List (Text × Text))} (ht : t.keys.Nodup) (k : Text)
    (e : Text × Text) :
    (entries (t.insert k ((t.get? k).getD [] ++ [e]))).Perm (entries t ++ [(k, e)]) := by
  induction t with
  | nil => exact .refl _
  | cons p t ih =>
    obtain ⟨j, es⟩ := p
    obtain ⟨hj, ht⟩ := List.nodup_cons.1 ht
    have hsplit : ∀ (i : Text × List (Text × Text)) (is : List (Text × List (Text × Text))),
        entries (i :: is) = i.2.map (fun e => (i.1, e)) ++ entries is := fun _ _ => rfl
    by_cases hjk : j = k
    · subst hjk
      have hinsert : Table.insert ((j, es) :: t) j
          ((Table.get? ((j, es) :: t) j).getD [] ++ [e]) = (j, es ++ [e]) :: t := by
        simp [Table.insert, Table.get?]
      rw [hinsert, hsplit, hsplit, List.map_append, List.append_assoc, List.append_assoc]
      exact (List.perm_append_comm).append_left _
    · have hkj : (j == k) = false := beq_false_of_ne hjk
      have hjk' : (k == j) = false := beq_false_of_ne (Ne.symm hjk)
      have hinsert : Table.insert ((j, es) :: t) k
          ((Table.get? ((j, es) :: t) k).getD [] ++ [e]) =
            (j, es) :: Table.insert t k ((Table.get? t k).getD [] ++ [e]) := by
        simp [Table.insert, Table.get?, List.lookup_cons, hkj, hjk']
      rw [hinsert, hsplit, hsplit, List.append_assoc]
      exact (ih ht).append_left _

/-- There is one entry for each use. -/
theorem entries_importsOf (path : Text) (uses : List Text) :
    (entries (importsOf path uses)).Perm
      (uses.map fun use => (moduleOf path use, nameOf use, aliasOf use)) := by
  have hfold : ∀ (uses : List Text) (t : Table Text (List (Text × Text))), t.keys.Nodup →
      (entries (uses.foldl (fun (t : Table Text (List (Text × Text))) use =>
        let target := moduleOf path use
        t.insert target ((t.get? target).getD [] ++ [(nameOf use, aliasOf use)])) t)).Perm
          (entries t ++ uses.map fun use => (moduleOf path use, nameOf use, aliasOf use)) := by
    intro uses
    induction uses with
    | nil => exact fun t _ => .of_eq (List.append_nil _).symm
    | cons use uses ih =>
      intro t ht
      rw [List.foldl_cons]
      refine (ih _ (Table.nodup_keys_insert ht _ _)).trans ?_
      have hfirst := (entries_insert ht (moduleOf path use)
        (nameOf use, aliasOf use)).append_right
          (uses.map fun use => (moduleOf path use, nameOf use, aliasOf use))
      rwa [List.append_assoc] at hfirst
  exact hfold uses [] List.nodup_nil

theorem mem_keys_importsOf {k : Text} (hk : k ∈ (importsOf path uses).keys) :
    ∃ use ∈ uses, k = moduleOf path use := by
  have hfold : ∀ (uses : List Text) (t : Table Text (List (Text × Text))),
      k ∈ Table.keys (uses.foldl (fun (t : Table Text (List (Text × Text))) use =>
        let target := moduleOf path use
        t.insert target ((t.get? target).getD [] ++ [(nameOf use, aliasOf use)])) t) →
          k ∈ t.keys ∨ ∃ use ∈ uses, k = moduleOf path use := by
    intro uses
    induction uses with
    | nil => exact fun _ => Or.inl
    | cons use uses ih =>
      intro t hk
      rcases ih _ hk with hk | ⟨use', huse, hk⟩
      · rcases Table.mem_keys_insert.1 hk with hk | hk
        · exact Or.inr ⟨use, List.mem_cons_self, hk⟩
        · exact Or.inl hk
      · exact Or.inr ⟨use', List.mem_cons_of_mem _ huse, hk⟩
  exact (hfold uses [] hk).resolve_left List.not_mem_nil

theorem exists_of_mem_importsOf {i : Text × List (Text × Text)} (hi : i ∈ importsOf path uses)
    {e : Text × Text} (he : e ∈ i.2) : ∃ use ∈ uses, e = (nameOf use, aliasOf use) := by
  have hmem : (i.1, e) ∈ entries (importsOf path uses) :=
    List.mem_flatMap.2 ⟨i, hi, List.mem_map.2 ⟨e, he, rfl⟩⟩
  obtain ⟨use, huse, heq⟩ := List.mem_map.1 ((entries_importsOf path uses).mem_iff.1 hmem)
  exact ⟨use, huse, (congrArg Prod.snd heq).symm⟩

/-! ## No import begins in what is written -/

theorem IsUse.isBlank_moduleOf (hname : IsIdentifier name)
    (hpath : ∀ c ∈ path, isBlank c = false) (h : IsUse name use) :
    ∀ c ∈ moduleOf path use, isBlank c = false := by
  obtain ⟨cs, n, hnames⟩ := h.exists_names
  rw [hnames.moduleOf_eq hname]
  refine forall_mem_join (List.forall_mem_singleton.2 (by decide))
    (List.forall_mem_cons.2 ⟨hpath, fun w hw c hc => ?_⟩)
  exact isBlank_of_isSized (isSized_of_isWord ((hnames.1 w hw).2 c hc))

theorem IsUse.isEntry (hname : IsIdentifier name) (h : IsUse name use) :
    IsEntry (nameOf use, aliasOf use) := by
  obtain ⟨cs, n, hnames⟩ := h.exists_names
  refine ⟨hnames.nameOf_eq hname ▸ hnames.2.1, h.isIdentifier_aliasOf hname, ?_⟩
  -- a name, a dot and another word are longer
  obtain ⟨ws, hne, hws, rfl⟩ := h
  obtain ⟨w, ws, rfl⟩ := List.exists_cons_of_ne_nil hne
  have hfirst := List.length_pos_iff.2 hname.1
  have hsecond := List.length_pos_iff.2 (hws w List.mem_cons_self).1
  intro he
  have hlength := congrArg List.length he
  simp only [aliasOf, List.length_map, List.length_append, dotted_cons, List.length_cons,
    toList_as, List.length_nil] at hlength
  omega

theorem closed_blocks_importsOf (hname : IsIdentifier name)
    (hpath : ∀ c ∈ path, isBlank c = false) (huses : ∀ use ∈ uses, IsUse name use)
    (ht : Closed t) : Closed (blocks (importsOf path uses) ++ t) := by
  refine closed_blocks (fun i hi => ?_) (fun i hi e he => ?_) ht
  · obtain ⟨use, huse, hkey⟩ := mem_keys_importsOf (List.mem_map_of_mem hi)
    exact hkey ▸ (huses use huse).isBlank_moduleOf hname hpath
  · obtain ⟨use, huse, rfl⟩ := exists_of_mem_importsOf hi he
    exact (huses use huse).isEntry hname

end ShaderLink.Namespaces
