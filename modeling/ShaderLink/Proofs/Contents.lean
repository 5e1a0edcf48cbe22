import ShaderLink.Proofs.Filling
import ShaderLink.Proofs.Serials

/-!
# What is in the modules

Without plugins, each module has what is read in its text, and a compiled library has a module for
each of its paths (`Store.Clear`).  So it can be told from the texts alone which references there
are in a library (`Store.Refers`), and the modules of a compiled library have just these:
`Clear.refers_iff`.
-/

namespace ShaderLink

open Store LinkM

/-! ## Modules as they were read -/

theorem Module.ReadWith.of_nil {m : Module} {calls : Calls} (h : m.ReadWith [] calls) :
    m.ReadWith [] [] := by
  obtain ⟨code, o, hpreprocess, hrest⟩ := h
  cases hpreprocess
  exact ⟨_, o, .nil _, hrest⟩

namespace Store

/-- Each module is as it was read without plugins, in a scope with a number that is in use. -/
structure Fit (s : Store) : Prop where
  read : ∀ i < s.modules.size, (s.module i).ReadWith [] []
  serial : ∀ i < s.modules.size, (s.module i).scope.serial < s.nextSerial

/-- The modules of the library are in the scope, and the scope is known by its number. -/
structure Bound (id : LibraryId) (scope : Scope) (s : Store) : Prop where
  owner : ∀ i < s.modules.size, (s.module i).scope.serial = scope.serial →
    (s.module i).scope.owner = scope.owner
  modules : ∀ p ∈ (s.library id).modules, p.2 < s.modules.size ∧
    (s.module p.2).scope.serial = scope.serial

section Fit

variable {s s' : Store} {id : LibraryId} {scope : Scope} {i : ModuleId} {m : Module} {calls : Calls}

theorem Fit.of_modules (hs : s.Fit) (hmodules : s'.modules = s.modules)
    (hserial : s.nextSerial ≤ s'.nextSerial) : s'.Fit := by
  have hmodule : s'.module = s.module := by
    funext i
    rw [module, module, hmodules]
  refine ⟨fun i hi => ?_, fun i hi => ?_⟩
  all_goals rw [hmodules] at hi; rw [hmodule]
  · exact hs.read i hi
  · exact (hs.serial i hi).trans_le hserial

theorem Fit.of_called (hs : s.Fit) (h : Called calls s s') : s'.Fit :=
  hs.of_modules h.modules h.nextSerial

theorem Fit.push (hs : s.Fit) (hread : m.ReadWith [] []) (hserial : m.scope.serial < s.nextSerial) :
    Fit { s with modules := s.modules.push m } := by
  refine ⟨fun i hi => ?_, fun i hi => ?_⟩
  all_goals
    rw [Array.size_push] at hi
    rw [module_push]
    split
  · exact hread
  · rename_i hne
    exact hs.read i (Nat.lt_of_le_of_ne (Nat.lt_succ_iff.1 hi) hne)
  · exact hserial
  · rename_i hne
    exact hs.serial i (Nat.lt_of_le_of_ne (Nat.lt_succ_iff.1 hi) hne)

theorem Fit.of_alters (hs : s.Fit) (h : Alters i calls s s') (hread : (s'.module i).ReadWith [] [])
    (hserial : (s'.module i).scope.serial < s.nextSerial) : s'.Fit := by
  refine ⟨fun j hj => ?_, fun j hj => ?_⟩
  all_goals
    rw [h.modules_size] at hj
    by_cases hji : j = i
  · exact hji ▸ hread
  · rw [h.others j hji]
    exact hs.read j hj
  · exact hji ▸ hserial.trans_le h.nextSerial
  · rw [h.others j hji]
    exact (hs.serial j hj).trans_le h.nextSerial

/-- Entering a module of the scope in the library. -/
theorem Bound.enter (hs : s.Bound id scope) (path : Text) (hi : i < s.modules.size)
    (hserial : (s.module i).scope.serial = scope.serial) : Bound id scope
      { s with libraries := s.libraries.modify id fun l =>
        { l with modules := l.modules.insert path i } } := by
  refine ⟨hs.owner, fun p hp => ?_⟩
  rw [library_modify] at hp
  split at hp
  · rcases Table.mem_of_mem_insert hp with rfl | hp
    · exact ⟨hi, hserial⟩
    · exact hs.modules p hp
  · exact hs.modules p hp

theorem Bound.of_called (hs : s.Bound id scope) (h : Called calls s s') : s'.Bound id scope := by
  refine ⟨?_, ?_⟩
  · rw [h.modules, h.toQuiet.module]
    exact hs.owner
  · rw [h.modules, h.toQuiet.module, h.toQuiet.library]
    exact hs.modules

theorem Bound.push (hs : s.Bound id scope) (hscope : m.scope = scope) :
    Bound id scope { s with modules := s.modules.push m } := by
  refine ⟨fun j hj hserial => ?_, fun p hp => ?_⟩
  · rw [Array.size_push] at hj
    rw [module_push] at hserial ⊢
    split
    · rw [hscope]
    · rename_i hne
      rw [if_neg hne] at hserial
      exact hs.owner j (Nat.lt_of_le_of_ne (Nat.lt_succ_iff.1 hj) hne) hserial
  · obtain ⟨hlt, hserial⟩ := hs.modules p hp
    rw [module_push, if_neg hlt.ne, Array.size_push]
    exact ⟨hlt.trans (Nat.lt_succ_self _), hserial⟩

theorem Bound.of_alters (hs : s.Bound id scope) (h : Alters i calls s s')
    (hscope : (s'.module i).scope = scope) : s'.Bound id scope := by
  refine ⟨fun j hj hserial => ?_, fun p hp => ?_⟩
  · by_cases hji : j = i
    · rw [hji, hscope]
    · rw [h.others j hji] at hserial ⊢
      exact hs.owner j (h.modules_size ▸ hj) hserial
  · rw [h.library] at hp
    obtain ⟨hlt, hserial⟩ := hs.modules p hp
    rw [h.modules_size]
    by_cases hpi : p.2 = i
    · rw [hpi, hscope]
      exact ⟨hpi ▸ hlt, rfl⟩
    · rw [h.others p.2 hpi]
      exact ⟨hlt, hserial⟩

end Fit

end Store

/-! ## Making modules -/

section Make

variable {s : Store} {id : LibraryId} {scope : Scope} {i : ModuleId}

theorem ends_makeModule_fit (hs : s.Fit) (hplugins : s.pluginsOf scope = [])
    (hserial : scope.serial < s.nextSerial) (path source : Text) (isShader : Bool) :
    Ends (fun i s' => s'.Fit ∧ i < s'.modules.size ∧ (s'.module i).scope = scope ∧
        (s'.module i).path = path ∧ (s'.module i).source = source ∧
          ∀ id, s.Bound id scope → s'.Bound id scope)
      Fit (makeModule path source scope isShader s) := by
  refine (ends_makeModule_calls path source scope isShader).mono (fun i s' => ?_) fun s' => ?_
  · rintro ⟨rfl, calls, s₁, m, hs₁, rfl, hpath, hsource, hscope, hread⟩
    have hsize : s.modules.size = s₁.modules.size := by rw [hs₁.modules]
    rw [hplugins] at hread
    refine ⟨(hs.of_called hs₁).push hread.of_nil ?_, ?_, ?_⟩
    · rw [hscope]
      exact hserial.trans_le hs₁.nextSerial
    · rw [Array.size_push, hsize]
      exact Nat.lt_succ_self _
    · rw [module_push, if_pos hsize]
      exact ⟨hscope, hpath, hsource, fun id hbound => (hbound.of_called hs₁).push hscope⟩
  · rintro ⟨⟨calls, h, -⟩, -⟩
    exact hs.of_called h

/-- A module that is bound is read again, unless it is in the scope already. -/
theorem ends_bindModule_fit (hs : s.Fit) (hplugins : s.pluginsOf scope = [])
    (hserial : scope.serial < s.nextSerial) (hi : i < s.modules.size) :
    Ends (fun _ s' => s'.Fit ∧ i < s'.modules.size ∧
        (s'.module i).scope.serial = scope.serial ∧ ∀ id, s.Bound id scope → s'.Bound id scope)
      Fit (bindModule i scope s) := by
  by_cases hsame : (s.module i).scope.serial = scope.serial
  · unfold bindModule
    apply ends_bind.2
    apply ends_get.2
    rw [if_pos hsame]
    exact ⟨hs, hi, hsame, fun _ h => h⟩
  refine (ends_bindModule_calls hi hsame).mono (fun _ s' => ?_) fun s' => ?_
  · rintro ⟨calls, h, hscope, hread⟩
    rw [hplugins] at hread
    refine ⟨hs.of_alters h hread.of_nil ?_, h.modules_size ▸ hi, by rw [hscope],
      fun id hbound => hbound.of_alters h hscope⟩
    rwa [hscope]
  · rintro ⟨⟨calls, h, hm, -⟩, -⟩
    refine hs.of_alters h ?_ ?_ <;> rw [hm]
    · exact hs.read i hi
    · exact hserial

theorem ends_placeModule_fit (hs : s.Fit) (hplugins : s.pluginsOf scope = [])
    (hserial : scope.serial < s.nextSerial) (hbound : s.Bound id scope) {path : Text}
    {source : Source} (hbuilt : ∀ i, source = .built i → i < s.modules.size) :
    Ends (fun _ s' => s'.Fit ∧ s'.Bound id scope) Fit (placeModule id scope path source s) := by
  cases source with
  | code t =>
    unfold placeModule
    refine (ends_makeModule_fit hs hplugins hserial path t false).bind fun i s₁ => ?_
    rintro ⟨hs₁, hi, hscope, -, -, hbound₁⟩
    apply ends_modify.2
    exact ⟨hs₁.of_modules rfl le_rfl, (hbound₁ id hbound).enter path hi (by rw [hscope])⟩
  | built i =>
    unfold placeModule
    apply ends_bind.2
    apply ends_get.2
    split
    · exact hs
    refine (ends_bindModule_fit hs hplugins hserial (hbuilt i rfl)).bind fun _ s₁ => ?_
    rintro ⟨hs₁, hi, hscope, hbound₁⟩
    apply ends_modify.2
    exact ⟨hs₁.of_modules rfl le_rfl, (hbound₁ id hbound).enter path hi hscope⟩
  | unsupported sort => exact hs

/-- The modules that are made for a library have its scope. -/
theorem ends_makeModules_fit (hs : s.Fit) (hplugins : (s.library id).plugins = [])
    (hbuilt : ∀ i, s.IsLeaf id i → i < s.modules.size) (hempty : (s.library id).modules = []) :
    Ends (fun _ s' => s'.Fit ∧ ∀ p ∈ (s'.library id).modules,
        (s'.module p.2).scope.owner = .library id)
      Fit (makeModules id s) := by
  unfold makeModules
  apply ends_bind.2
  apply ends_get.2
  apply ends_bind.2
  apply ends_bind.2
  apply ends_get.2
  apply ends_bind.2
  apply ends_set.2
  apply ends_pure.2
  let scope : Scope := { serial := s.nextSerial, owner := .library id }
  let s₁ : Store := { s with nextSerial := s.nextSerial + 1 }
  have hfresh : Called [] s s₁ := ⟨quiet_fresh s, (List.append_nil _).symm⟩
  have hs₁ : s₁.Fit := hs.of_called hfresh
  cases hdefinition : (s.library id).definition with
  | unusable => exact hs₁
  | tree t =>
    have hleaves : (t.leaves.map fun p => (Tree.pathOf (s.library id).name p.1, p.2)) =
        (s.library id).leaves := by
      rw [Library.leaves, hdefinition]
      rfl
    show Ends _ _ (t.forLeaves (placeModule id scope) (s.library id).name s₁)
    rw [Tree.forLeaves_eq_forM, hleaves]
    refine (ends_forM_rest (I := fun rest s' => ∃ leaves ids,
      (s.library id).leaves = leaves ++ rest ∧ LodgedAll id leaves ids s s' ∧ s'.Fit ∧
        s'.Bound id scope ∧ s.nextSerial < s'.nextSerial) ?_ ?_).imp fun _ s' => ?_
    · rintro leaf rest s' ⟨leaves, ids, hrest, hplaced, hs', hbound, hserial⟩
      have hleaf : leaf ∈ (s.library id).leaves := by simp [hrest]
      have hleaf' : leaf ∈ (s'.library id).leaves := by rwa [hplaced.spares.leaves]
      have hbuilt' : ∀ i, s'.IsLeaf id i → i < s'.modules.size := by
        rw [hplaced.spares.isLeaf]
        exact fun i hi => (hbuilt i hi).trans_le hplaced.spares.modules_size
      have hplugins' : s'.pluginsOf scope = [] := (hplaced.spares.plugins id).trans hplugins
      refine ((ends_placeModule_placed hbuilt' rfl hleaf').and (ends_placeModule_fit hs' hplugins'
        hserial hbound fun i hi => hbuilt' i ⟨leaf.1, hi ▸ hleaf'⟩)).mono (fun _ s'' => ?_)
          fun s'' h => h.2
      rintro ⟨⟨i, h⟩, hs'', hbound''⟩
      exact ⟨_, _, by simp [hrest], hplaced.place hbuilt hleaf h, hs'', hbound'',
        hserial.trans_le h.spares.nextSerial⟩
    · refine ⟨[], [], rfl, ⟨hfresh.spares, ?_, .nil, by simp⟩, hs₁, ⟨fun i hi hserial => ?_, ?_⟩,
        Nat.lt_succ_self _⟩
      · show s.library id = { s.library id with modules := [] }
        rw [← hempty]
      · exact absurd hserial (hs.serial i hi).ne
      · show ∀ p ∈ (s.library id).modules, _
        rw [hempty]
        exact List.forall_mem_nil _
    · rintro ⟨leaves, ids, -, -, hs', hbound, -⟩
      exact ⟨hs', fun p hp => hbound.owner p.2 (hbound.modules p hp).1 (hbound.modules p hp).2⟩

end Make

/-! ## Paths and modules -/

section Tables

variable {α β : Type} {R : Text × α → Text × β → Prop} {t : Table Text α} {u : Table Text β}

theorem Table.forall₂_insert (hR : ∀ p q, R p q → p.1 = q.1) (h : List.Forall₂ R t u) {k : Text}
    {a : α} {b : β} (hab : R (k, a) (k, b)) :
    List.Forall₂ R (t.insert k a) (u.insert k b) := by
  induction h with
  | nil => exact .cons hab .nil
  | @cons p q t u hpq htu ih =>
    have hkey := hR p q hpq
    unfold Table.insert
    by_cases hk : p.1 = k
    · rw [if_pos (beq_iff_eq.2 hk), if_pos (beq_iff_eq.2 (hkey ▸ hk)), ← hkey, hk]
      exact .cons hab htu
    · rw [if_neg (mt beq_iff_eq.1 hk), if_neg (mt beq_iff_eq.1 (hkey ▸ hk))]
      exact .cons hpq ih

/-- Lists that correspond to each other, with the same keys, are entered in the same way. -/
theorem Table.forall₂_ofList (hR : ∀ p q, R p q → p.1 = q.1) {as : List (Text × α)}
    {bs : List (Text × β)} (h : List.Forall₂ R as bs) :
    List.Forall₂ R (Table.ofList as) (Table.ofList bs) := by
  refine List.rel_foldl (P := List.Forall₂ R) (R := R) (fun t u htu p q hpq => ?_) .nil h
  obtain ⟨k, a⟩ := p
  obtain ⟨k', b⟩ := q
  obtain rfl : k = k' := hR _ _ hpq
  exact forall₂_insert hR htu hpq

end Tables

/-- The leaf at each path; of leaves with one path the last one counts. -/
def Library.places (l : Library) : Table Text Source := Table.ofList l.leaves

/-- The path leads to the library that the table has under its first segment. -/
def LeadsTo (t : Table Text LibraryId) (path : Text) (id : LibraryId) : Prop :=
  firstSegment path ≠ [] ∧ t.get? (firstSegment path) = some id

/-- Something in the module with the text at the path has the reference. -/
def RefersIn (path text : Text) (r : Reference) : Prop :=
  ∃ o, (Outline.read path (Comment.strip text)).1 = .ok o ∧ ∃ d ∈ o.declarations, r ∈ d.references

/-- A module that was read without plugins has the references of its text. -/
theorem Module.ReadWith.refersIn_iff {m : Module} {r : Reference} (h : m.ReadWith [] []) :
    RefersIn m.path m.source r ↔ ∃ d ∈ m.declarations, r ∈ d.references := by
  obtain ⟨_, o, hpreprocess, hread, hnumbers, -⟩ := h
  cases hpreprocess
  constructor
  · rintro ⟨o', hread', d, hd, hr⟩
    obtain rfl : o = o' := Except.ok.inj (hread.symm.trans hread')
    obtain ⟨d', hd', hnumber⟩ := exists_of_forall₂_left hnumbers hd
    exact ⟨d', hd', by rw [hnumber.1]; exact hr⟩
  · rintro ⟨d', hd', hr⟩
    obtain ⟨d, hd, hnumber⟩ := exists_of_forall₂_right hnumbers hd'
    rw [hnumber.1] at hr
    exact ⟨o, hread, d, hd, hr⟩

namespace Store

/-- The text of a leaf; a module that exists already has to stand at its own path. -/
def textAt (s : Store) (leaf : Text × Source) : Option Text :=
  match leaf.2 with
  | .code t => some t
  | .built i => if (s.module i).path = leaf.1 then some (s.module i).source else none
  | .unsupported _ => none

/-- Something in a module of the library has the reference. -/
def Refers (s : Store) (id : LibraryId) (r : Reference) : Prop :=
  ∃ leaf ∈ (s.library id).places, ∃ text, s.textAt leaf = some text ∧ RefersIn leaf.1 text r

/-- The library has a module for each of its paths. -/
def Furnished (s : Store) (id : LibraryId) : Prop :=
  List.Forall₂ (fun (leaf : Text × Source) p => leaf.1 = p.1 ∧ s.Fills leaf p.2)
    (s.library id).places (s.library id).modules

/-- What is true of every store without plugins: it is sound, the modules that are leaves of
libraries exist, each module is as it was read, and compiled libraries have their modules. -/
structure Clear (s : Store) : Prop extends Sound s where
  built : ∀ id i, s.IsLeaf id i → i < s.modules.size
  fit : s.Fit
  furnished : ∀ id, s.IsCompiled id → s.Furnished id

section Contents

variable {L : LibraryId → Prop} {M : ModuleId → Prop} {s s' : Store} {id : LibraryId}
  {leaf : Text × Source} {i : ModuleId} {ids : List ModuleId} {r : Reference}

theorem Clear.orderly (hs : s.Clear) : s.Orderly where
  built := hs.built
  idle id hid := hs.idle id (Bool.not_eq_true _ ▸ hid)

theorem Spares.places (h : Spares L M s s') (id : LibraryId) :
    (s'.library id).places = (s.library id).places := by
  rw [Library.places, Library.places, h.leaves]

theorem Furnished.of_spares (h : s.Furnished id) (hs : Spares L M s s')
    (hlibrary : s'.library id = s.library id) : s'.Furnished id := by
  unfold Furnished
  rw [hlibrary]
  exact h.imp fun _ _ h => ⟨h.1, h.2.of_spares hs⟩

theorem Filled.furnished (h : s.Filled id ids) : s.Furnished id := by
  have hpairs : ∀ {leaves : List (Text × Source)} {ids}, List.Forall₂ s.Fills leaves ids →
      List.Forall₂ (fun (leaf : Text × Source) p => leaf.1 = p.1 ∧ s.Fills leaf p.2) leaves
        ((leaves.map Prod.fst).zip ids) := by
    intro leaves ids hfills
    induction hfills with
    | nil => exact .nil
    | cons hi _ ih => exact .cons ⟨rfl, hi⟩ ih
  unfold Furnished
  rw [h.modules]
  exact Table.forall₂_ofList (fun _ _ h => h.1) (hpairs h.fills)

theorem Fills.textAt (h : s.Fills leaf i) : s.textAt leaf = some (s.module i).source := by
  unfold Store.textAt
  rcases h.source with hsource | hsource <;> rw [hsource]
  exact if_pos h.path

/-- The modules of a compiled library have just the references in the texts of its leaves. -/
theorem Clear.refers_iff (hs : s.Clear) (hid : s.IsCompiled id) : s.Refers id r ↔
    ∃ p ∈ (s.library id).modules, ∃ d ∈ (s.module p.2).declarations, r ∈ d.references := by
  have hmodule : ∀ {leaf : Text × Source} {i : ModuleId}, s.Fills leaf i → ∀ {text : Text},
      s.textAt leaf = some text →
        (RefersIn leaf.1 text r ↔ ∃ d ∈ (s.module i).declarations, r ∈ d.references) := by
    intro leaf i h text htext
    rw [h.textAt] at htext
    rw [← Option.some.inj htext, ← h.path]
    exact (hs.fit.read i h.lt_size).refersIn_iff
  constructor
  · rintro ⟨leaf, hleaf, text, htext, hrefers⟩
    obtain ⟨p, hp, -, hfills⟩ := exists_of_forall₂_left (hs.furnished id hid) hleaf
    exact ⟨p, hp, (hmodule hfills htext).1 hrefers⟩
  · rintro ⟨p, hp, hrefers⟩
    obtain ⟨leaf, hleaf, -, hfills⟩ := exists_of_forall₂_right (hs.furnished id hid) hp
    exact ⟨leaf, hleaf, _, hfills.textAt, (hmodule hfills hfills.textAt).2 hrefers⟩

/-- What the texts refer to does not change. -/
theorem Clear.refers_of_spares (hs : s.Clear) (h : Spares L M s s') :
    s'.Refers id r ↔ s.Refers id r := by
  have htext : ∀ leaf ∈ (s.library id).places, s'.textAt leaf = s.textAt leaf := by
    rintro ⟨path, source⟩ hleaf
    cases source with
    | code t => rfl
    | built i =>
      have hi := hs.built id i ⟨path, Table.mem_of_mem_ofList hleaf⟩
      show (if (s'.module i).path = path then some (s'.module i).source else none) =
        if (s.module i).path = path then some (s.module i).source else none
      rw [h.path i hi, h.source i hi]
    | unsupported sort => rfl
  unfold Refers
  rw [h.places]
  refine exists_congr fun leaf => and_congr_right fun hleaf => ?_
  rw [htext leaf hleaf]

end Contents

end Store

end ShaderLink
