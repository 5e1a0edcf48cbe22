import Mathlib.Data.List.Perm.Subperm
import ShaderLink.Renaming

/-!
# New names

Declarations that share a name get new names, and a warning says when one of these is declared
already.  Two new names can only agree if they come from a name and the same name with an underscore
behind it, both of which are shared (`Twins`): then both get the same numbers behind the same
underscore, without any warning.  `separatesOrWarns_iff` says that nothing else goes wrong, and
`not_separatesOrWarns_underscore` shows four declarations with which this happens.
-/

namespace ShaderLink.Renaming

variable {ds : List Declaration} {name id : Text}

/-! ## Numbered names -/

/-- The part of new names before the number. -/
def stem (name : Text) : Text := if name.getLast? = some '_' then name else name ++ ['_']

theorem numbered_eq (name : Text) (i : Nat) : numbered name i = stem name ++ Nat.toDigits 10 i := by
  unfold numbered stem
  split <;> simp

theorem exists_stem_eq (name : Text) : ∃ t, stem name = t ++ ['_'] := by
  unfold stem
  split
  · rename_i h
    exact List.getLast?_eq_some_iff.1 h
  · exact ⟨name, rfl⟩

theorem underscore_not_mem_toDigits (i : Nat) : '_' ∉ Nat.toDigits 10 i := by
  intro h
  exact absurd (Nat.isDigit_of_mem_toDigits (by decide) (Nat.le_refl 10) h) (by decide)

theorem toDigits_inj {i j : Nat} (h : Nat.toDigits 10 i = Nat.toDigits 10 j) : i = j := by
  have hvalue := congrArg (fun t => Nat.ofDigitChars 10 t 0) h
  have hread : ∀ n, Nat.ofDigitChars 10 (Nat.toDigits 10 n) 0 = n :=
    fun n => Nat.ofDigitChars_toDigits (by decide) (Nat.le_refl 10)
  simpa only [hread] using hvalue

/-- The number behind the last underscore and what stands before it can be read off a new name. -/
theorem numbered_inj {name name' : Text} {i j : Nat} (h : numbered name i = numbered name' j) :
    stem name = stem name' ∧ i = j := by
  obtain ⟨t, ht⟩ := exists_stem_eq name
  obtain ⟨t', ht'⟩ := exists_stem_eq name'
  rw [numbered_eq, numbered_eq, ht, ht', List.append_assoc, List.append_assoc] at h
  obtain ⟨rfl, hdigits⟩ := Text.append_cons_inj (underscore_not_mem_toDigits i)
    (underscore_not_mem_toDigits j) h
  exact ⟨ht.trans ht'.symm, toDigits_inj hdigits⟩

theorem stem_append_underscore (h : name.getLast? ≠ some '_') :
    stem (name ++ ['_']) = stem name := by
  simp [stem, h]

/-- Different names with one stem differ by an underscore at the end. -/
theorem stem_eq_cases {name' : Text} (h : stem name = stem name') :
    name = name' ∨ (name.getLast? ≠ some '_' ∧ name' = name ++ ['_']) ∨
      (name'.getLast? ≠ some '_' ∧ name = name' ++ ['_']) := by
  unfold stem at h
  split at h <;> split at h
  · exact Or.inl h
  · rename_i hname'
    exact Or.inr (Or.inr ⟨hname', h⟩)
  · rename_i hname _
    exact Or.inr (Or.inl ⟨hname, h.symm⟩)
  · exact Or.inl (List.append_cancel_right h)

/-! ## Shared names -/

/-- Several ids are declared under the name. -/
def Shared (ds : List Declaration) (name : Text) : Prop := 2 ≤ (idsOf ds name).length

theorem nodup_eraseDups (l : List Text) : l.eraseDups.Nodup := by
  cases l with
  | nil => exact List.nodup_nil
  | cons a l =>
    rw [List.eraseDups_cons, List.nodup_cons]
    refine ⟨fun h => ?_, nodup_eraseDups _⟩
    simp [List.mem_eraseDups] at h
termination_by l.length
decreasing_by
  have := List.length_filter_le (fun b => !b == a) l
  rw [List.length_cons]
  omega

theorem nodup_idsOf (ds : List Declaration) (name : Text) : (idsOf ds name).Nodup :=
  nodup_eraseDups _

theorem mem_idsOf : id ∈ idsOf ds name ↔ ∃ d ∈ ds, d.name = name ∧ d.id = id := by
  simp [idsOf, List.mem_eraseDups, and_assoc]

theorem mem_names : name ∈ names ds ↔ ∃ d ∈ ds, d.name = name := by
  simp [names, List.mem_eraseDups]

theorem Shared.mem_names (h : Shared ds name) : name ∈ names ds := by
  have hlt : 0 < (idsOf ds name).length := Nat.lt_of_lt_of_le Nat.zero_lt_two h
  obtain ⟨id, hid⟩ := List.exists_mem_of_length_pos hlt
  obtain ⟨d, hd, hname, -⟩ := mem_idsOf.1 hid
  exact Renaming.mem_names.2 ⟨d, hd, hname⟩

theorem shared_of_ne {id' : Text} (h : id ∈ idsOf ds name) (h' : id' ∈ idsOf ds name)
    (hne : id ≠ id') : Shared ds name := by
  have hpair : [id, id'].Subperm (idsOf ds name) :=
    List.Nodup.subperm (by simp [hne]) (by simp [h, h'])
  exact hpair.length_le

/-! ## New names -/

/-- All ids that are renamed, with their new names. -/
def renames (ds : List Declaration) : List (Text × Text) := (names ds).flatMap (renamesOf ds)

theorem mem_renames {new : Text} : (id, new) ∈ renames ds ↔
    ∃ name k, Shared ds name ∧ (idsOf ds name)[k]? = some id ∧ new = numbered name k := by
  simp only [renames, renamesOf, List.mem_flatMap]
  constructor
  · rintro ⟨name, -, h⟩
    split at h
    · cases h
    · rename_i hlen
      obtain ⟨⟨id', k⟩, hk, heq⟩ := List.mem_map.1 h
      obtain ⟨rfl, rfl⟩ := Prod.mk.inj heq
      exact ⟨name, k, Nat.not_lt.1 hlen, List.mem_zipIdx_iff_getElem?.1 hk, rfl⟩
  · rintro ⟨name, k, hshared, hk, rfl⟩
    refine ⟨name, hshared.mem_names, ?_⟩
    rw [if_neg (Nat.not_lt.2 hshared)]
    exact List.mem_map.2 ⟨(id, k), List.mem_zipIdx_iff_getElem?.2 hk, rfl⟩

theorem warnings_eq_nil_iff :
    warnings ds = [] ↔ ∀ id new, (id, new) ∈ renames ds → new ∉ names ds := by
  have hids : ∀ new, (idsOf ds new).head? = none ↔ new ∉ names ds := by
    intro new
    rw [List.head?_eq_none_iff, List.eq_nil_iff_forall_not_mem, mem_names]
    simp only [mem_idsOf, not_exists, not_and]
    exact ⟨fun h d hd hname => h d.id d hd hname rfl, fun h id d hd hname _ => h d hd hname⟩
  unfold warnings
  rw [List.filterMap_eq_nil_iff]
  simp only [Option.map_eq_none_iff, hids, Prod.forall]
  rfl

/-- The name of a declaration in the linked text. -/
def finalName (ds : List Declaration) (d : Declaration) : Text :=
  ((ofDeclarations ds).get? d.id).getD d.name

theorem mem_renames_of_get? {new : Text} (h : (ofDeclarations ds).get? id = some new) :
    (id, new) ∈ renames ds :=
  Table.mem_of_mem_ofList (Table.mem_of_get?_eq_some h)

theorem exists_get?_of_shared (hshared : Shared ds name) (h : id ∈ idsOf ds name) :
    ∃ new, (ofDeclarations ds).get? id = some new := by
  obtain ⟨k, hk⟩ := List.mem_iff_getElem?.1 h
  have hmem : (id, numbered name k) ∈ renames ds := mem_renames.2 ⟨name, k, hshared, hk, rfl⟩
  rw [← Option.isSome_iff_exists, Option.isSome_iff_ne_none, ne_eq, Table.get?_eq_none_iff, not_not]
  exact Table.mem_keys_ofList.2 (List.mem_map.2 ⟨_, hmem, rfl⟩)

/-! ## Apart or warned -/

/-- If there is no warning, declarations with different ids end up with different names. -/
def SeparatesOrWarns (ds : List Declaration) : Prop :=
  warnings ds = [] → ∀ d ∈ ds, ∀ e ∈ ds, d.id ≠ e.id → finalName ds d ≠ finalName ds e

/-- The name and the same name with an underscore behind it are both shared, and so their new names
are the same. -/
def Twins (ds : List Declaration) (name : Text) : Prop :=
  name.getLast? ≠ some '_' ∧ Shared ds name ∧ Shared ds (name ++ ['_'])

/-- One new name for two ids comes from twins. -/
theorem exists_twins {id' new : Text} (h : (id, new) ∈ renames ds) (h' : (id', new) ∈ renames ds)
    (hne : id ≠ id') : ∃ name, Twins ds name := by
  obtain ⟨name, k, hshared, hk, rfl⟩ := mem_renames.1 h
  obtain ⟨name', k', hshared', hk', hnew⟩ := mem_renames.1 h'
  obtain ⟨hstem, rfl⟩ := numbered_inj hnew
  rcases stem_eq_cases hstem with rfl | ⟨hlast, rfl⟩ | ⟨hlast, rfl⟩
  · exact absurd (Option.some.inj (hk.symm.trans hk')) hne
  · exact ⟨name, hlast, hshared, hshared'⟩
  · exact ⟨name', hlast, hshared', hshared⟩

theorem separatesOrWarns_of_not_twins (h : ∀ name, ¬ Twins ds name) : SeparatesOrWarns ds := by
  intro hquiet d hd e he hne heq
  rw [warnings_eq_nil_iff] at hquiet
  have hnames : ∀ c ∈ ds, c.name ∈ names ds := fun c hc => mem_names.2 ⟨c, hc, rfl⟩
  unfold finalName at heq
  cases hdnew : (ofDeclarations ds).get? d.id with
  | none =>
    cases henew : (ofDeclarations ds).get? e.id with
    | none =>
      rw [hdnew, henew] at heq
      have hshared : Shared ds d.name :=
        shared_of_ne (mem_idsOf.2 ⟨d, hd, rfl, rfl⟩) (mem_idsOf.2 ⟨e, he, heq.symm, rfl⟩) hne
      obtain ⟨new, hnew⟩ := exists_get?_of_shared hshared (mem_idsOf.2 ⟨d, hd, rfl, rfl⟩)
      exact absurd (hdnew.symm.trans hnew) nofun
    | some new =>
      rw [hdnew, henew] at heq
      obtain rfl : d.name = new := heq
      exact hquiet _ _ (mem_renames_of_get? henew) (hnames d hd)
  | some new =>
    cases henew : (ofDeclarations ds).get? e.id with
    | none =>
      rw [hdnew, henew] at heq
      obtain rfl : new = e.name := heq
      exact hquiet _ _ (mem_renames_of_get? hdnew) (hnames e he)
    | some new' =>
      rw [hdnew, henew] at heq
      obtain rfl : new = new' := heq
      obtain ⟨name, hname⟩ :=
        exists_twins (mem_renames_of_get? hdnew) (mem_renames_of_get? henew) hne
      exact h name hname

section Twins

variable (hids : ∀ d ∈ ds, ∀ e ∈ ds, d.id = e.id → d.name = e.name)
include hids

theorem finalName_of_getElem? {d : Declaration} {k : Nat} (hd : d ∈ ds) (hshared : Shared ds d.name)
    (hk : (idsOf ds d.name)[k]? = some d.id) : finalName ds d = numbered d.name k := by
  have hmem : d.id ∈ idsOf ds d.name := List.mem_of_getElem? hk
  obtain ⟨new, hnew⟩ := exists_get?_of_shared hshared hmem
  obtain ⟨name, j, -, hj, rfl⟩ := mem_renames.1 (mem_renames_of_get? hnew)
  obtain ⟨c, hc, rfl, hcid⟩ := mem_idsOf.1 (List.mem_of_getElem? hj)
  have hname := hids c hc d hd hcid
  rw [hname] at hj hnew
  obtain ⟨hlt, -⟩ := List.getElem?_eq_some_iff.1 hk
  have hjk : k = j := (List.getElem?_inj hlt (nodup_idsOf ds d.name)).1 (hk.trans hj.symm)
  rw [finalName, hnew, hjk]
  rfl

theorem Twins.not_separates (h : Twins ds name) :
    ∃ d ∈ ds, ∃ e ∈ ds, d.id ≠ e.id ∧ finalName ds d = finalName ds e := by
  obtain ⟨hlast, hshared, hshared'⟩ := h
  have hfirst : ∀ {n}, Shared ds n → ∃ d ∈ ds, d.name = n ∧ (idsOf ds n)[0]? = some d.id := by
    intro n hn
    have hlt : 0 < (idsOf ds n).length := Nat.lt_of_lt_of_le Nat.zero_lt_two hn
    obtain ⟨d, hd, hname, hid⟩ := mem_idsOf.1 (List.getElem_mem hlt)
    exact ⟨d, hd, hname, hid ▸ List.getElem?_eq_getElem hlt⟩
  obtain ⟨d, hd, rfl, hzero⟩ := hfirst hshared
  obtain ⟨e, he, hname, hzero'⟩ := hfirst hshared'
  refine ⟨d, hd, e, he, fun hid => ?_, ?_⟩
  · have := congrArg List.length ((hids d hd e he hid).trans hname)
    simp at this
  · rw [← hname] at hshared' hzero'
    rw [finalName_of_getElem? hids hd hshared hzero, finalName_of_getElem? hids he hshared' hzero',
      numbered_eq, numbered_eq, hname, stem_append_underscore hlast]

/-- Where no two names share an id, new names keep declarations apart, or there is a warning, unless
there are twins. -/
theorem separatesOrWarns_iff :
    SeparatesOrWarns ds ↔ warnings ds ≠ [] ∨ ∀ name, ¬ Twins ds name := by
  constructor
  · intro h
    by_contra hcon
    rw [not_or, not_not, not_forall_not] at hcon
    obtain ⟨hquiet, name, hname⟩ := hcon
    obtain ⟨d, hd, e, he, hne, heq⟩ := hname.not_separates hids
    exact h hquiet d hd e he hne heq
  · rintro (h | h)
    · exact fun hquiet => absurd hquiet h
    · exact separatesOrWarns_of_not_twins h

end Twins

/-! ## Four declarations -/

/-- A global variable of a module. -/
def sampleGlobal (name path : String) : Declaration :=
  { kind := .global, name := name.toList, path := path.toList, index := 0,
    definition := s!"float {name} = 1.0;".toList }

/-- The name `x` is shared, and `x_` is not. -/
def sampleApart : List Declaration :=
  [sampleGlobal "x" "a", sampleGlobal "x" "b", sampleGlobal "x_" "a", sampleGlobal "y" "b"]

theorem separatesOrWarns_apart :
    (∀ d ∈ sampleApart, ∀ e ∈ sampleApart, d.id = e.id → d.name = e.name) ∧
      SeparatesOrWarns sampleApart := by
  have hids : ∀ d ∈ sampleApart, ∀ e ∈ sampleApart, d.id = e.id → d.name = e.name := by decide
  refine ⟨hids, (separatesOrWarns_iff hids).2 (Or.inr ?_)⟩
  rintro name ⟨-, hshared, hshared'⟩
  have hnames : ∀ n ∈ names sampleApart, n ++ ['_'] ∈ names sampleApart →
      ¬ 2 ≤ (idsOf sampleApart (n ++ ['_'])).length := by decide
  exact hnames name hshared.mem_names hshared'.mem_names hshared'

/-- The names `x` and `x_` are both shared. -/
def sampleTwins : List Declaration :=
  [sampleGlobal "x" "a", sampleGlobal "x" "b", sampleGlobal "x_" "a", sampleGlobal "x_" "b"]

/-- The new names are `x_0`, `x_1` and once more `x_0`, `x_1`, and there is no warning. -/
theorem not_separatesOrWarns_underscore : ¬ SeparatesOrWarns sampleTwins := by
  intro h
  exact h (by decide) (sampleGlobal "x" "a") (by decide) (sampleGlobal "x_" "a") (by decide)
    (by decide) (by decide)

end ShaderLink.Renaming
