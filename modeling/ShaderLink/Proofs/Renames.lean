import ShaderLink.Proofs.Faults
import ShaderLink.Proofs.FinalNames
import ShaderLink.Proofs.Readings

/-!
# Exports under other names

An export may give a declaration another name, which is then written in the code.  It has to be a
word that does not stand there yet (`Text.Fresh`), so it can be taken back by writing the old name
in its place, and no two words become one (`Text.Fresh.isRenaming`).  The statements are blanked
before any name is written, since that moves what stands behind it.  `exports_rename` says what
reading exports does to the code, and when an entry is refused.
-/

namespace ShaderLink

open Pattern

namespace Text

variable {old new t w : Text} {rs : List (Text × Text)}

/-! ## Names that are written one after the other -/

/-- Writes new names in the place of the old ones, one pair after the other. -/
def rename (rs : List (Text × Text)) (t : Text) : Text :=
  rs.foldl (fun t r => t.replaceWord r.1 r.2) t

/-- Writes the old names in the place of the new ones, the last pair first. -/
def restore (rs : List (Text × Text)) (t : Text) : Text :=
  rs.reverse.foldl (fun t r => t.replaceWord r.2 r.1) t

/-- What becomes of a word. -/
def renamed (rs : List (Text × Text)) (w : Text) : Text :=
  rs.foldl (fun w r => exchange r.1 r.2 w) w

/-- All names are identifiers, and each new one is a new word when it is written. -/
def Fresh : List (Text × Text) → Text → Prop
  | [], _ => True
  | r :: rs, t => IsIdentifier r.1 ∧ IsIdentifier r.2 ∧ t.containsWord r.2 = false ∧
      Fresh rs (t.replaceWord r.1 r.2)

/-- A text is what another one becomes by renaming; this can be taken back, and different words of
the text stay different. -/
structure IsRenaming (rs : List (Text × Text)) (t t' : Text) : Prop where
  eq : t' = rename rs t
  restore_eq : restore rs t' = t
  runs_eq : runs t' = (runs t).map (Run.map (renamed rs))
  injective : ∀ v w, .word v ∈ runs t → .word w ∈ runs t → renamed rs v = renamed rs w → v = w

theorem rename_append (rs rs' : List (Text × Text)) (t : Text) :
    rename (rs ++ rs') t = rename rs' (rename rs t) := List.foldl_append

theorem restore_cons (r : Text × Text) (rs : List (Text × Text)) (t : Text) :
    restore (r :: rs) t = (restore rs t).replaceWord r.2 r.1 := by
  rw [restore, List.reverse_cons, List.foldl_append]
  rfl

theorem exchange_exchange (hw : w ≠ new) : exchange new old (exchange old new w) = w := by
  unfold exchange
  by_cases h : w = old
  · rw [if_pos h, if_pos rfl, h]
  · rw [if_neg h, if_neg hw]

theorem runs_replaceWord (hold : IsIdentifier old) (hnew : IsIdentifier new) (t : Text) :
    runs (t.replaceWord old new) = (runs t).map (Run.map (exchange old new)) := by
  rw [replaceWord_eq hold]
  exact runs_flatten ((proper_runs t).of_alike
    (alike_map (fun _ => Declaration.isIdentifier_exchange hnew) (runs t)))

/-- A new word can be taken back. -/
theorem replaceWord_replaceWord (hold : IsIdentifier old) (hnew : IsIdentifier new)
    (h : t.containsWord new = false) : (t.replaceWord old new).replaceWord new old = t := by
  rw [replaceWord_eq hnew, runs_replaceWord hold hnew, Run.map_map]
  have hsame : (runs t).map (Run.map fun w => exchange new old (exchange old new w)) =
      (runs t).map (Run.map id) := by
    refine map_eq_map_iff.2 fun w hw => exchange_exchange ?_
    rintro rfl
    exact Bool.eq_false_iff.1 h ((containsWord_iff hnew t).2 hw)
  rw [hsame, Run.map_eq_self (f := id) fun _ => rfl, flatten_runs]

namespace Fresh

variable (h : Fresh rs t)
include h

theorem restore_rename : restore rs (rename rs t) = t := by
  induction rs generalizing t with
  | nil => rfl
  | cons r rs ih =>
    obtain ⟨hold, hnew, hfresh, hrs⟩ := h
    show restore (r :: rs) (rename rs (t.replaceWord r.1 r.2)) = t
    rw [restore_cons, ih hrs, replaceWord_replaceWord hold hnew hfresh]

theorem runs_rename : runs (rename rs t) = (runs t).map (Run.map (renamed rs)) := by
  induction rs generalizing t with
  | nil => exact (Run.map_eq_self (fun _ => rfl) _).symm
  | cons r rs ih =>
    obtain ⟨hold, hnew, -, hrs⟩ := h
    show runs (rename rs (t.replaceWord r.1 r.2)) = _
    rw [ih hrs, runs_replaceWord hold hnew, Run.map_map]
    rfl

theorem renamed_inj {v w : Text} (hv : .word v ∈ runs t) (hw : .word w ∈ runs t)
    (heq : renamed rs v = renamed rs w) : v = w := by
  induction rs generalizing t v w with
  | nil => exact heq
  | cons r rs ih =>
    obtain ⟨hold, hnew, hfresh, hrs⟩ := h
    have hmem : ∀ u, .word u ∈ runs t →
        .word (exchange r.1 r.2 u) ∈ runs (t.replaceWord r.1 r.2) := by
      intro u hu
      rw [runs_replaceWord hold hnew]
      exact List.mem_map.2 ⟨.word u, hu, rfl⟩
    have hother : ∀ u, .word u ∈ runs t → u ≠ r.2 := by
      rintro _ hu rfl
      exact Bool.eq_false_iff.1 hfresh ((containsWord_iff hnew t).2 hu)
    have hstep := ih hrs (hmem v hv) (hmem w hw) heq
    rw [← exchange_exchange (hother v hv), hstep, exchange_exchange (hother w hw)]

theorem isRenaming : IsRenaming rs t (rename rs t) :=
  ⟨rfl, h.restore_rename, h.runs_rename, fun _ _ => h.renamed_inj⟩

end Fresh

theorem fresh_append {rs' : List (Text × Text)} (h : Fresh rs t) (h' : Fresh rs' (rename rs t)) :
    Fresh (rs ++ rs') t := by
  induction rs generalizing t with
  | nil => exact h'
  | cons r rs ih => exact ⟨h.1, h.2.1, h.2.2.1, ih h.2.2.2 h'⟩

end Text

/-! ## Statements in blanks -/

/-- Blanks the matches in a text. -/
def blankAll (ms : List Match) (t : Text) : Text :=
  ms.foldl (fun t m => t.blankOut m.start m.stop) t

/-- The code with its exports blanked. -/
def withoutExports (code : Text) : Text := blankAll (Statement.exportForm.sequence code) code

theorem blankAll_spec {ms : List Match} {t : Text} (h : ∀ m ∈ ms, m.stop ≤ t.length) (i : Nat) :
    (blankAll ms t)[i]? = if Covered ms i then some ' ' else t[i]? := by
  induction ms generalizing t with
  | nil => rw [if_neg (by rintro ⟨_, hm, -⟩; cases hm)]; rfl
  | cons m ms ih =>
    obtain ⟨hm, hms⟩ := List.forall_mem_cons.1 h
    have hle : m.start ≤ m.stop := Nat.le_add_right _ _
    have hlength : (t.blankOut m.start m.stop).length = t.length := Text.length_blankOut hle hm
    have hcovered : Covered (m :: ms) i ↔ (m.start ≤ i ∧ i < m.stop) ∨ Covered ms i := by
      simp [Covered, List.mem_cons, or_and_right, exists_or]
    show (blankAll ms (t.blankOut m.start m.stop))[i]? = _
    rw [ih fun m' hm' => hlength ▸ hms m' hm']
    by_cases hrest : Covered ms i
    · rw [if_pos hrest, if_pos (hcovered.2 (Or.inr hrest))]
    · rw [if_neg hrest]
      by_cases hi : m.start ≤ i ∧ i < m.stop
      · rw [if_pos (hcovered.2 (Or.inl hi)), Text.getElem?_blankOut_inside hi.2 hi.1 hm]
      · rw [if_neg (mt hcovered.1 (not_or.2 ⟨hi, hrest⟩)),
          Text.getElem?_blankOut_outside (by omega) hle hm]

/-! ## Entries -/

namespace Statement

/-- The name in an entry of an export and the new one, if there is one. -/
def renaming? (entry : Text) : Option (Text × Text) :=
  (exportEntry.search entry).bind fun m => (m.group? 3).map fun new => (m.group 2, new)

/-- The entries of the exports in a text, in order. -/
def exportEntries (code : Text) : List Text :=
  (exportForm.sequence code).flatMap fun m => entries (m.group 1)

/-- The new names in the exports of a text, in order. -/
def renamings (code : Text) : List (Text × Text) := (exportEntries code).filterMap renaming?

end Statement

namespace Pass

open Text

variable {path entry code left : Text} {es : List Text} {m : Match} {x : Export}
  {found : List Export} {f : Fault}

theorem exportEntry_apply (hm : Statement.exportEntry.search entry = some m) :
    exportEntry path entry code = match qualifier path (m.group? 1) with
      | .error f => (.error f, code)
      | .ok isInternal => match m.group? 3 with
        | none => (.ok { name := m.group 2, isInternal }, code)
        | some new =>
          if code.containsWord new then (.error ((Cause.aliasTaken new).inModule path), code)
          else (.ok { name := new, isInternal }, code.replaceWord (m.group 2) new) := by
  unfold exportEntry
  rw [hm]
  simp only [bind_apply]
  cases hq : qualifier path (m.group? 1) with
  | error f => rfl
  | ok isInternal =>
    cases m.group? 3 with
    | none => rfl
    | some new =>
      show (if code.containsWord new = true then _ else _ : Pass Export) code = _
      by_cases htaken : code.containsWord new = true
      · rw [if_pos htaken]
        exact (if_pos htaken).symm
      · rw [if_neg htaken]
        exact (if_neg htaken).symm

/-- An entry that is accepted has its new name written, which is a new word then. -/
theorem fresh_exportEntry (h : exportEntry path entry code = (.ok x, left)) :
    Fresh (Statement.renaming? entry).toList code ∧
      left = rename (Statement.renaming? entry).toList code := by
  cases hm : Statement.exportEntry.search entry with
  | none =>
    unfold exportEntry at h
    rw [hm] at h
    cases h
  | some m =>
    obtain ⟨b, start, u, hhere⟩ := exists_here_of_search hm
    obtain ⟨hname, hnew⟩ := isIdentifier_of_exportEntry hhere
    rw [exportEntry_apply hm] at h
    unfold Statement.renaming?
    rw [hm]
    split at h
    · cases h
    · split at h
      · rename_i hnone
        obtain ⟨-, rfl⟩ := Prod.mk.inj h
        simp [hnone, Fresh, rename]
      · rename_i new hsome
        split at h
        · cases h
        · rename_i hfree
          obtain ⟨-, rfl⟩ := Prod.mk.inj h
          simp [hsome, Fresh, rename, hname, hnew new hsome, hfree]

theorem fresh_mapM_exportEntry (h : es.mapM (exportEntry path) code = (.ok found, left)) :
    Fresh (es.filterMap Statement.renaming?) code ∧
      left = rename (es.filterMap Statement.renaming?) code := by
  induction es generalizing code found with
  | nil => exact ⟨trivial, (Prod.mk.inj h).2.symm⟩
  | cons entry es ih =>
    rw [List.mapM_cons, bind_apply] at h
    cases hentry : exportEntry path entry code with
    | mk r now =>
      rw [hentry] at h
      cases r with
      | error f => cases h
      | ok x =>
        simp only [bind_apply] at h
        cases hes : es.mapM (exportEntry path) now with
        | mk r left' =>
          rw [hes] at h
          cases r with
          | error f => cases h
          | ok found' =>
            obtain ⟨-, rfl⟩ := Prod.mk.inj h
            obtain ⟨hfresh, rfl⟩ := fresh_exportEntry hentry
            obtain ⟨hrest, rfl⟩ := ih hes
            have hlist : (entry :: es).filterMap Statement.renaming? =
                (Statement.renaming? entry).toList ++ es.filterMap Statement.renaming? := by
              rw [List.filterMap_cons]
              cases Statement.renaming? entry <;> rfl
            rw [hlist, rename_append]
            exact ⟨fresh_append hfresh hrest, rfl⟩

theorem forM_clear (ms : List Match) (code : Text) :
    (ms.forM fun m => clear m.start m.stop) code = (.ok (), blankAll ms code) := by
  induction ms generalizing code with
  | nil => rfl
  | cons m ms ih => exact ih (code.blankOut m.start m.stop)

theorem mapM_flatMap (read : Text → Pass Export) (lists : List (List Text)) :
    (lists.mapM fun es => es.mapM read) >>= (fun found => pure found.flatten) =
      lists.flatten.mapM read := by
  induction lists with
  | nil => simp
  | cons es lists ih =>
    rw [List.flatten_cons, List.mapM_append, ← ih, List.mapM_cons]
    simp only [bind_assoc, pure_bind, List.flatten_cons]

/-- The statements are blanked first; then the entries are read one after the other. -/
theorem exports_apply (path code : Text) : exports path code =
    (Statement.exportEntries code).mapM (exportEntry path) (withoutExports code) := by
  unfold exports Statement.exportEntries withoutExports
  rw [List.flatMap_def, ← mapM_flatMap, List.mapM_map]
  show ((Statement.exportForm.sequence code).forM (fun m => clear m.start m.stop) >>= fun _ => _ :
    Pass (List Export)) code = _
  rw [bind_apply, forM_clear]
  rfl

/-- Where an entry is refused, reading the exports ends. -/
theorem mapM_exportEntry_error {done rest : List Text}
    (hdone : done.mapM (exportEntry path) code = (.ok found, left))
    (hentry : exportEntry path entry left = (.error f, left)) :
    (done ++ entry :: rest).mapM (exportEntry path) code = (.error f, left) := by
  rw [List.mapM_append, bind_apply, hdone]
  simp only [bind_apply, List.mapM_cons, hentry]

theorem exists_qualifier_error_iff (path : Text) {q? : Option Text} :
    (∃ f, qualifier path q? = .error f) ↔ ∃ q ∈ q?, q ≠ "internal".toList := by
  unfold qualifier
  cases q? with
  | none => exact ⟨fun ⟨_, h⟩ => (nomatch h), fun ⟨_, h, _⟩ => (nomatch h)⟩
  | some q =>
    by_cases hknown : q = "internal".toList
    · simp only [if_pos hknown]
      exact ⟨fun ⟨_, h⟩ => (nomatch h), fun ⟨_, h, hne⟩ => absurd (Option.some.inj h ▸ hknown) hne⟩
    · simp only [if_neg hknown]
      exact ⟨fun _ => ⟨q, rfl, hknown⟩, fun _ => ⟨_, rfl⟩⟩

/-- A qualifier other than the known one is refused, and so is a new name that is taken. -/
theorem exists_exportEntry_error_iff {new : Text} (hm : Statement.exportEntry.search entry = some m)
    (hnew : m.group? 3 = some new) : (∃ f, exportEntry path entry code = (.error f, code)) ↔
      (∃ q ∈ m.group? 1, q ≠ "internal".toList) ∨ code.containsWord new = true := by
  rw [exportEntry_apply hm, hnew, ← exists_qualifier_error_iff path]
  cases qualifier path (m.group? 1) with
  | error f => exact ⟨fun _ => Or.inl ⟨f, rfl⟩, fun _ => ⟨f, rfl⟩⟩
  | ok isInternal =>
    by_cases htaken : code.containsWord new = true
    · simp only [if_pos htaken]
      exact ⟨fun _ => Or.inr htaken, fun _ => ⟨_, rfl⟩⟩
    · simp only [if_neg htaken]
      exact ⟨fun ⟨_, h⟩ => (nomatch h),
        fun h => h.elim (fun ⟨_, h⟩ => (nomatch h)) fun h => absurd h htaken⟩

end Pass

/-- Reading the exports comes to this entry with the code as it is then: the entries in front of it
are accepted. -/
def Reaches (path code : Text) (done : List Text) (entry now : Text) : Prop :=
  (∃ rest, Statement.exportEntries code = done ++ entry :: rest) ∧
    ∃ found, done.mapM (Pass.exportEntry path) (withoutExports code) = (.ok found, now)

namespace Reader

open Text

variable {s s' : Reading} {done : List Text} {entry now : Text} {f : Fault} {found : List Export}

theorem isRenaming_of_exports (h : exports s = (.ok found, s')) :
    IsRenaming (Statement.renamings s.code) (withoutExports s.code) s'.code := by
  obtain ⟨hpass, -⟩ := follows_exports s
  rw [h, Pass.exports_apply] at hpass
  obtain ⟨hfresh, hcode⟩ := Pass.fresh_mapM_exportEntry hpass
  rw [hcode]
  exact hfresh.isRenaming

/-- A fault at an entry is the fault of reading the exports. -/
theorem exports_error (h : Reaches s.path s.code done entry now)
    (hentry : Pass.exportEntry s.path entry now = (.error f, now)) :
    exports s = (.error f, { s with code := now }) := by
  obtain ⟨⟨rest, hrest⟩, found, hdone⟩ := h
  have hpass : Pass.exports s.path s.code = (.error f, now) := by
    rw [Pass.exports_apply, hrest]
    exact Pass.mapM_exportEntry_error hdone hentry
  unfold exports
  rw [bind_apply, onCode, hpass]

/-- Every export statement is blanked where it stands, and then the new names are written in the
order of the entries, without capturing anything.  An entry with a new name is refused if and only
if its qualifier is not the known one or the new name is a word of the code at that time. -/
theorem exports_rename (s : Reading) :
    ((∀ m ∈ Statement.exportForm.sequence s.code, m.LiesIn s.code) ∧
      ∀ i, (withoutExports s.code)[i]? =
        if Covered (Statement.exportForm.sequence s.code) i then some ' ' else s.code[i]?) ∧
    (∀ found s', exports s = (.ok found, s') →
      IsRenaming (Statement.renamings s.code) (withoutExports s.code) s'.code) ∧
    ∀ done entry now, Reaches s.path s.code done entry now →
      now = rename (done.filterMap Statement.renaming?) (withoutExports s.code) ∧
      (∀ f, Pass.exportEntry s.path entry now = (.error f, now) →
        exports s = (.error f, { s with code := now }) ∧ f.LocatedIn s.path) ∧
      ∀ m new, Statement.exportEntry.search entry = some m → m.group? 3 = some new →
        ((∃ f, Pass.exportEntry s.path entry now = (.error f, now)) ↔
          (∃ q ∈ m.group? 1, q ≠ "internal".toList) ∨ now.containsWord new = true) := by
  have hlies := (placed_sequence (p := Statement.exportForm) rfl s.code).liesIn
  refine ⟨⟨hlies, fun i => ?_⟩, fun found s' => isRenaming_of_exports,
    fun done entry now h => ⟨?_, fun f hf => ⟨exports_error h hf, ?_⟩, fun m new hm hnew => ?_⟩⟩
  · exact blankAll_spec (fun m hm => (hlies m hm).stop_le) i
  · obtain ⟨-, found, hdone⟩ := h
    exact (Pass.fresh_mapM_exportEntry hdone).2
  · exact Pass.failsWith_exportEntry entry now f (congrArg Prod.fst hf)
  · exact Pass.exists_exportEntry_error_iff hm hnew

/-- A name that was new a moment ago is replaced in its turn. -/
theorem exports_rename_twice : ∃ found s',
    exports ⟨Outline.unread "m".toList
      "export \x7b f as ff, ff as g \x7d;\nfloat f(float x) \x7b return x; \x7d\n".toList, []⟩ =
        (.ok found, s') ∧
    s'.code = "                            \nfloat g(float x) \x7b return x; \x7d\n".toList ∧
    restore [("f".toList, "ff".toList), ("ff".toList, "g".toList)] s'.code =
      "                            \nfloat f(float x) \x7b return x; \x7d\n".toList := by
  let s : Reading := ⟨Outline.unread "m".toList
    "export \x7b f as ff, ff as g \x7d;\nfloat f(float x) \x7b return x; \x7d\n".toList, []⟩
  obtain ⟨found, s', h⟩ := exists_eq_ok (r := exports s) (by decide +kernel)
  have hrenaming := (exports_rename s).2.1 found s' h
  have hnames : Statement.renamings s.code =
      [("f".toList, "ff".toList), ("ff".toList, "g".toList)] := by decide +kernel
  rw [hnames] at hrenaming
  refine ⟨found, s', h, hrenaming.eq.trans ?_, hrenaming.restore_eq.trans ?_⟩ <;> decide +kernel

/-- An entry may also be refused for its qualifier, with a new name that is not taken. -/
theorem not_refused_iff_taken : ¬ ∀ (s : Reading) done entry now m new,
    Reaches s.path s.code done entry now → Statement.exportEntry.search entry = some m →
      m.group? 3 = some new →
        ((∃ f, Pass.exportEntry s.path entry now = (.error f, now)) ↔
          now.containsWord new = true) := by
  intro h
  let s : Reading := ⟨Outline.unread "m".toList
    "export \x7b foo x as y \x7d;\nfloat x = 1.0;\n".toList, []⟩
  have hreaches : Reaches s.path s.code [] "foo x as y".toList (withoutExports s.code) :=
    ⟨⟨[], by decide +kernel⟩, [], rfl⟩
  have hentry : Statement.exportEntry.search "foo x as y".toList =
      some ⟨0, "foo x as y".toList, [some "foo".toList, some "x".toList, some "y".toList]⟩ := by
    decide +kernel
  have htaken := (h s [] _ _ _ _ hreaches hentry rfl).1
    ((Pass.exists_exportEntry_error_iff hentry rfl).2 (Or.inl ⟨"foo".toList, rfl, by decide⟩))
  exact absurd htaken (by decide +kernel)

end Reader

end ShaderLink
