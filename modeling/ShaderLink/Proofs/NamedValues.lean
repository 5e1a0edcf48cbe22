import ShaderLink.Proofs.NamedCalls

/-!
# Reading named arguments

Names and values can be read off what stands between the braces of a call, whatever blanks are
around them and whether there is a comma at the end (`values_eq`).  A value may have colons in it,
and commas between parentheses.  Names that are wrapped and then unwrapped are what they were.
-/

namespace ShaderLink

open Text Pattern Cursor

/-! ## Arguments -/

namespace NamedArguments

/-- A value: commas are inside of brackets, and all brackets are closed again. -/
structure IsValue (v : Text) : Prop extends IsPiece v where
  ne_nil : v ≠ []
  trim_eq : v.trim = v
  brace_not_mem : '\x7d' ∉ v

theorem isValue_iff {v : Text} :
    IsValue v ↔ IsPiece v ∧ v ≠ [] ∧ v.trim = v ∧ '\x7d' ∉ v :=
  ⟨fun h => ⟨h.toIsPiece, h.ne_nil, h.trim_eq, h.brace_not_mem⟩,
    fun ⟨hpiece, hne, htrim, hbrace⟩ => ⟨hpiece, hne, htrim, hbrace⟩⟩

instance (v : Text) : Decidable (IsValue v) := decidable_of_iff _ isValue_iff.symm

example : IsValue "on ? mix(a, b, 0.5) : c".toList ∧ ¬ IsValue "a, b".toList := by decide

/-- An argument as it is written: a name, a colon and a value, with blanks around them. -/
structure NamedValue where
  before : Text
  name : Text
  mid : Text
  after : Text
  value : Text
  behind : Text
  isBlank_before : before.AllBlank
  isIdentifier : IsIdentifier name
  isBlank_mid : mid.AllBlank
  isBlank_after : after.AllBlank
  isValue : IsValue value
  isBlank_behind : behind.AllBlank

namespace NamedValue

/-- The name and the value, without the blanks around both. -/
def core (x : NamedValue) : Text := x.name ++ (x.mid ++ ':' :: (x.after ++ x.value))

def text (x : NamedValue) : Text := x.before ++ (x.core ++ x.behind)

theorem core_ne_nil (x : NamedValue) : x.core ≠ [] := by
  simp [core, x.isIdentifier.1]

theorem trim_core (x : NamedValue) : x.core.trim = x.core := by
  refine trim_eq_self ?_ ?_
  · obtain ⟨c, w, hw⟩ := List.exists_cons_of_ne_nil x.isIdentifier.1
    intro d hd
    rw [core, hw] at hd
    cases hd
    exact isBlank_of_isSized (isSized_of_isWord (x.isIdentifier.2 c (hw ▸ List.mem_cons_self)))
  · have hcore : x.core = x.name ++ (x.mid ++ ':' :: x.after) ++ x.value := by simp [core]
    rw [hcore, List.getLast?_append_of_ne_nil _ x.isValue.ne_nil]
    exact isBlank_last_of_trim x.isValue.trim_eq

theorem trim_text (x : NamedValue) : x.text.trim = x.core := by
  rw [text, trim_append_left x.isBlank_before, trim_append_right x.isBlank_behind, x.trim_core]

theorem isPiece_text (x : NamedValue) : IsPiece x.text := by
  have hcolon : IsPiece [':'] := isPiece_of_forall (by simp [nesting]) (by simp)
  have htext : x.text = x.before ++ (x.name ++ (x.mid ++ ([':'] ++ (x.after ++ x.value))) ++
      x.behind) := rfl
  have hname := isPiece_of_isIdentifier x.isIdentifier
  have hmid := isPiece_of_allBlank x.isBlank_mid
  have hvalue := (isPiece_of_allBlank x.isBlank_after).append x.isValue.toIsPiece
  rw [htext]
  exact (isPiece_of_allBlank x.isBlank_before).append
    ((hname.append (hmid.append (hcolon.append hvalue))).append
      (isPiece_of_allBlank x.isBlank_behind))

theorem not_prefix_takeWhile_of_head? {test : Char → Bool} {z t : Text} (hz : z ≠ [])
    (h : ∀ c ∈ t.head?, test c = false) : ¬ z <+: t.takeWhile test := by
  cases t with
  | nil => exact fun hpre => hz (List.prefix_nil.1 hpre)
  | cons c t => exact not_prefix_takeWhile hz (h c rfl)

theorem run_optional_of_some {p : Pattern} {k k' : Cursor} {done : Cursor → Option Cursor}
    (h : p.run k done = some k') : (optional p).run k done = some k' := by
  show (p.run k done).orElse _ = _
  rw [h]
  rfl

/-- The name is what stands in front of the first colon, and the value all that stands behind. -/
theorem exists_search_core (x : NamedValue) :
    ∃ m, argumentForm.search x.core = some m ∧ m.group 1 = x.name ∧ m.group 2 = x.value := by
  let k : Cursor := ⟨none, x.core, x.core.length, []⟩
  let lead : Text := x.name ++ x.mid ++ [':'] ++ x.after
  have hk : k.Counts := rfl
  have hrest : k.rest = [] ++ (x.name ++ (x.mid ++ ':' :: (x.after ++ x.value))) := rfl
  have hlead : k.rest = lead ++ (x.value ++ []) := by simp [k, lead, core]
  have hwhole : lead ++ x.value = x.core := by simp [lead, core]
  have hword : ∀ z, z ≠ [] → ¬ z <+: (x.mid ++ ':' :: (x.after ++ x.value)).takeWhile isWord :=
    fun z hz => not_prefix_takeWhile_of_head? hz (forall_mem_head?_blank_append x.isBlank_mid
      (fun _ => isWord_of_isBlank) (by decide) _)
  have hvalue : ∀ z, z ≠ [] → ¬ z <+: (x.value ++ []).takeWhile isBlank := by
    intro z hz
    rw [List.append_nil]
    exact not_prefix_takeWhile_of_head? hz (isBlank_head_of_trim x.isValue.trim_eq)
  let s₁ := k.upTo (k.after x.name)
  let s₂ := (k.after lead).upTo (k.after x.core)
  have hend : (k.after x.core).rest = [] := rest_after_of_eq (List.append_nil x.core).symm
  have hrun : argumentForm.run k some = some ((k.after x.core).withGroups [(2, s₂), (1, s₁)]) := by
    show (optional (group 1 identifier ++ blanks ++ lit ':')).run k (fun k₃ =>
      blanks.run k₃ fun k₄ => (many1 anything).run k₄ fun k₅ =>
        textEnd.run (k₅.remember 2 (k₄.upTo k₅)) some) = _
    refine run_optional_of_some ?_
    show (many1 letter).run ((k.after []).withGroups []) (fun k₁ =>
      blanks.run (k₁.remember 1 (k.upTo k₁)) fun k₂ => (lit ':').run k₂ _) = _
    refine run_many1_after x.isIdentifier.1 hrest x.isIdentifier.2
      (fun z hz hpre => absurd hpre (hword z hz)) ?_
    refine run_chars_after (u := x.name) hrest x.isBlank_mid
      (fun z hz hpre => absurd hpre (not_prefix_takeWhile hz (by decide))) ?_
    refine run_lit_after (t := x.after ++ x.value) (by simp [k, core]) ?_
    refine run_chars_after (t := x.value ++ []) (by simp [k, core]) x.isBlank_after
      (fun z hz hpre => absurd hpre (hvalue z hz)) ?_
    refine run_many1_after x.isValue.ne_nil hlead (fun _ _ => rfl)
      (fun z hz hpre => absurd (List.prefix_nil.1 hpre) hz) ?_
    rw [hwhole]
    refine (run_textEnd ?_).trans rfl
    exact hend
  obtain ⟨m, hm, -, hgroup⟩ := exists_search_of_run hrun
  refine ⟨m, hm, (hgroup 0).trans ?_, (hgroup 1).trans ?_⟩
  · exact text_upTo_after hk hrest
  · show ((k.after lead).upTo (k.after x.core)).text = _
    rw [← hwhole]
    exact text_upTo_after_after hk (hlead.trans (List.append_assoc ..).symm)

/-- The name and the value are read off an argument. -/
theorem argument_core (all : Text) (x : NamedValue) :
    argument all x.core = .ok (x.name, x.value) := by
  obtain ⟨m, hm, hname, hvalue⟩ := x.exists_search_core
  have hsome : m.group? 1 = some x.name := by
    cases hone : m.group? 1 with
    | none =>
      have hnil : x.name = [] := hname.symm.trans (congrArg (Option.getD · []) hone)
      exact absurd hnil x.isIdentifier.1
    | some w => exact congrArg some ((congrArg (Option.getD · []) hone).symm.trans hname)
  unfold argument
  rw [hm]
  simp only [hsome, hvalue, Option.getD_some, x.isValue.trim_eq]

end NamedValue

/-! ## Lists of arguments -/

/-- The arguments, with commas between them; behind one more comma there may be blanks. -/
def listText (xs : List NamedValue) (ending : Option Text) : Text :=
  join [','] (xs.map NamedValue.text ++ ending.toList)

variable {xs : List NamedValue} {ending : Option Text} {g e list : Text}

theorem forall_isPiece (hending : ∀ b ∈ ending, AllBlank b) :
    ∀ t ∈ xs.map NamedValue.text ++ ending.toList, IsPiece t := by
  intro t ht
  rcases List.mem_append.1 ht with ht | ht
  · obtain ⟨x, -, rfl⟩ := List.mem_map.1 ht
    exact x.isPiece_text
  · exact isPiece_of_allBlank (hending t (Option.mem_toList.1 ht))

theorem parts_listText (hne : xs ≠ []) (hending : ∀ b ∈ ending, AllBlank b) :
    parts (listText xs ending) = xs.map NamedValue.core := by
  have htexts : (xs.map NamedValue.text).map trim = xs.map NamedValue.core := by
    rw [List.map_map]
    exact List.map_congr_left fun x _ => x.trim_text
  have hcores : ∀ t ∈ xs.map NamedValue.core, (!t.isEmpty) = true := by
    intro t ht
    obtain ⟨x, -, rfl⟩ := List.mem_map.1 ht
    simpa using x.core_ne_nil
  have hlast : (ending.toList.map trim).filter (!·.isEmpty) = [] := by
    refine List.filter_eq_nil_iff.2 fun t ht => ?_
    obtain ⟨b, hb, rfl⟩ := List.mem_map.1 ht
    have hblank := trim_append_left (hending b (Option.mem_toList.1 hb)) []
    rw [List.append_nil] at hblank
    rw [hblank]
    exact Bool.false_ne_true
  have hparts : xs.map NamedValue.text ++ ending.toList ≠ [] := by simp [hne]
  rw [parts, listText, pieces_join hparts (forall_isPiece hending), List.map_append,
    List.filter_append, htexts, List.filter_eq_self.2 hcores, hlast, List.append_nil]

/-- The values of a list by name, in the order in which they are written. -/
theorem values_eq (rename : Text → Text) (hne : xs ≠ []) (hending : ∀ b ∈ ending, AllBlank b)
    (hg : g.AllBlank) (he : e.AllBlank) (hlist : listText xs ending = g ++ list ++ e)
    (hnodup : (xs.map fun x => rename x.name).Nodup) :
    values rename list = .ok (xs.map fun x => (rename x.name, x.value)) := by
  have hparts : parts list.trim = xs.map NamedValue.core := by
    rw [parts_trim, ← parts_listText hne hending, hlist, parts_append_blank he,
      parts_blank_append hg]
  have hbalance : balance list.trim = 0 := by
    have hwhole : balance (listText xs ending) = 0 := balance_join (forall_isPiece hending)
    rw [hlist, balance_append, balance_append, (isPiece_of_allBlank hg).balance_eq,
      (isPiece_of_allBlank he).balance_eq] at hwhole
    rw [balance_trim]
    omega
  obtain ⟨ps, hps, hfilter⟩ := exists_splitCommas_eq hbalance
  have hread : (xs.map NamedValue.core).mapM (argument list) =
      .ok (xs.map fun x => (x.name, x.value)) := by
    rw [List.mapM_map]
    exact Precedence.mapM_eq_ok fun x _ => x.argument_core list
  have htable : Table.ofList (xs.map fun x => (rename x.name, x.value)) =
      xs.map fun x => (rename x.name, x.value) := by
    refine Table.ofList_of_nodup ?_
    rwa [List.map_map]
  have hsteps : values rename list = ((ps.filter (!·.isEmpty)).mapM (argument list)).bind
      fun as => .ok (Table.ofList (as.map fun a => (rename a.1, a.2))) := by
    unfold values
    rw [hps]
    rfl
  rw [hsteps, hfilter, hparts, hread]
  show Except.ok (Table.ofList _) = _
  rw [List.map_map]
  exact congrArg Except.ok htable

/-! ## Wrapped names -/

theorem isIdentifier_wrap {w : Text} (hw : IsIdentifier w) : IsIdentifier (wrap w) := by
  refine ⟨by simp [wrap], fun c hc => ?_⟩
  have hunderscore : isWord '_' = true := by decide
  rcases List.mem_cons.1 hc with rfl | hc
  · exact hunderscore
  rcases List.mem_append.1 hc with hc | hc
  · exact hw.2 c hc
  · exact List.mem_singleton.1 hc ▸ hunderscore

theorem unwrap_wrap {w : Text} (hw : w ≠ []) : unwrap (wrap w) = w := by
  have hlength : 2 < (wrap w).length := by
    have hpos := List.length_pos_iff.2 hw
    simp only [wrap, List.cons_append, List.length_cons, List.length_append, List.length_nil]
    omega
  have hlast : (wrap w).getLast? = some '_' := List.getLast?_concat
  have hhead : (wrap w).head? = some '_' := rfl
  rw [unwrap, hhead, hlast, if_pos (by simpa using hlength)]
  simp [wrap]

theorem wrap_injective : Function.Injective wrap := fun _ _ h =>
  List.append_cancel_right (List.cons.inj h).2

end NamedArguments

end ShaderLink
