import ShaderLink.Proofs.Constraints
import ShaderLink.Proofs.Lines
import ShaderLink.Proofs.Printing

/-!
# Statements that are written and read

Imports and exports are written one statement to a line, in any order.  Each statement is found as a
whole in its line, and nothing is found elsewhere: neither across lines, nor in an export while
imports are looked for, nor in the blanks that are left of the imports while exports are looked for
(`readsLines_imports`, `readsLines_exports`).  So the two passes give back all entries in order, and
leave blanks.
-/

namespace ShaderLink

open Text Pattern

/-! ## Lines -/

/-- An import of some entries from a path, as it is written. -/
def importLine (entries : List (Text × Option Text)) (path : Text) : Text :=
  "import \x7b ".toList ++ listed (entries.map importText) ++ " \x7d from \"".toList ++ path ++
    "\";".toList

/-- An export of some entries, as it is written. -/
def exportLine (entries : List Export) : Text :=
  "export \x7b ".toList ++ listed (entries.map Export.text) ++ " \x7d;".toList

/-- A line with an import, with an export, or with nothing but blanks. -/
inductive Line where
  | imports (entries : List (Text × Option Text)) (path : Text)
  | exports (entries : List Export)
  | blanks (n : Nat)
deriving DecidableEq

/-- A path between quotes, without the sign for the library. -/
def IsPlainPath (p : Text) : Prop :=
  p ≠ [] ∧ ∀ c ∈ p, isBlank c = false ∧ c ∉ "\"'`;@".toList

instance (p : Text) : Decidable (IsPlainPath p) :=
  have : Decidable (∀ c ∈ p, isBlank c = false ∧ c ∉ "\"'`;@".toList) := List.decidableBAll _ p
  inferInstanceAs (Decidable (_ ∧ _))

/-- The path of an import; in front of a path there may be the sign for the library. -/
def IsImportPath (p : Text) : Prop :=
  IsPlainPath p ∨ p.head? = some '@' ∧ IsPlainPath p.tail

instance (p : Text) : Decidable (IsImportPath p) := inferInstanceAs (Decidable (_ ∨ _))

/-- The path that is meant, where the sign stands for the library. -/
def expanded (library : Text) : Text → Text
  | '@' :: p => library ++ p
  | p => p

namespace Line

/-- A line, as it is written. -/
def text : Line → Text
  | imports entries path => importLine entries path
  | exports entries => exportLine entries
  | blanks n => List.replicate n ' '

/-- Names and paths are what they should be, and no list is empty. -/
def Regular : Line → Prop
  | imports entries path => entries ≠ [] ∧ (∀ e ∈ entries, IsImportEntry e) ∧ IsImportPath path
  | exports entries => entries ≠ [] ∧ ∀ e ∈ entries, IsIdentifier e.name
  | blanks _ => True

instance : ∀ l, Decidable (Regular l)
  | imports entries path =>
    inferInstanceAs
      (Decidable (entries ≠ [] ∧ (∀ e ∈ entries, IsImportEntry e) ∧ IsImportPath path))
  | exports entries =>
    inferInstanceAs (Decidable (entries ≠ [] ∧ ∀ e ∈ entries, IsIdentifier e.name))
  | blanks _ => isTrue trivial

/-- The imports of a line in a module of a library. -/
def imported (library : Text) : Line → List Import
  | imports entries path =>
    entries.map fun e => { name := e.1, path := expanded library path, aliasName := e.2 }
  | _ => []

/-- The exports of a line. -/
def exported : Line → List Export
  | exports entries => entries
  | _ => []

/-- What is remembered of an import. -/
def importGroups : Line → Option (List (Option Text))
  | imports entries path =>
    some [some (listed (entries.map importText) ++ [' ']), some ['"'], some path]
  | _ => none

/-- What is remembered of an export. -/
def exportGroups : Line → Option (List (Option Text))
  | exports entries => some [some ([' '] ++ (listed (entries.map Export.text) ++ [' ']))]
  | _ => none

/-- A line of which something is remembered has been taken out. -/
def blanked (groups : Line → Option (List (Option Text))) (l : Line) : Line :=
  if (groups l).isSome then blanks l.text.length else l

end Line

variable {ls : List Line} {l : Line} {ws : List Text} {entries : List (Text × Option Text)}
  {es : List Export} {b : Option Char} {path library p r t w z : Text} {start : Nat}

/-! ## Taking a line -/

theorem importLine_eq (entries : List (Text × Option Text)) (path : Text) :
    importLine entries path = "import".toList ++ [' '] ++ ['\x7b'] ++ [' '] ++
      (listed (entries.map importText) ++ [' ']) ++ ['\x7d'] ++ [' '] ++ "from".toList ++ [' '] ++
      ['"'] ++ path ++ ['"'] ++ [';'] := by
  have hfront : "import \x7b ".toList = "import".toList ++ [' '] ++ ['\x7b'] ++ [' '] := rfl
  have hmiddle : " \x7d from \"".toList =
      [' '] ++ ['\x7d'] ++ [' '] ++ "from".toList ++ [' '] ++ ['"'] := rfl
  have hback : "\";".toList = ['"'] ++ [';'] := rfl
  unfold importLine
  rw [hfront, hmiddle, hback]
  simp only [List.append_assoc]

theorem exportLine_eq (es : List Export) :
    exportLine es = "export".toList ++ [' '] ++ ['\x7b'] ++
      ([' '] ++ (listed (es.map Export.text) ++ [' '])) ++ ['\x7d'] ++ [';'] := by
  have hfront : "export \x7b ".toList = "export".toList ++ [' '] ++ ['\x7b'] ++ [' '] := rfl
  have hback : " \x7d;".toList = [' '] ++ ['\x7d'] ++ [';'] := rfl
  unfold exportLine
  rw [hfront, hback]
  simp only [List.append_assoc]

theorem IsImportPath.exists_plain (h : IsImportPath p) :
    IsPlainPath p ∨ ∃ q, IsPlainPath q ∧ p = '@' :: q := by
  rcases h with h | ⟨hhead, h⟩
  · exact Or.inl h
  · obtain ⟨q, rfl⟩ := List.head?_eq_some_iff.1 hhead
    exact Or.inr ⟨q, h, rfl⟩

theorem IsImportPath.ne_nil (h : IsImportPath p) : p ≠ [] := by
  rcases h.exists_plain with h | ⟨q, -, rfl⟩
  · exact h.1
  · exact List.cons_ne_nil _ _

theorem IsImportPath.forall_mem (h : IsImportPath p) :
    ∀ c ∈ p, (!isBlank c && !"\"'`;".toList.contains c) = true := by
  have hplain : ∀ {p}, IsPlainPath p →
      ∀ c ∈ p, (!isBlank c && !"\"'`;".toList.contains c) = true := by
    intro p hp c hc
    obtain ⟨hblank, hmem⟩ := hp.2 c hc
    simp_all
  rcases h.exists_plain with h | ⟨q, hq, rfl⟩
  · exact hplain h
  · exact List.forall_mem_cons.2 ⟨by decide, hplain hq⟩

/-- An import is taken as a whole. -/
theorem here_importForm {list : Text} (hlist : ∀ r, ∀ c ∈ (list ++ r).head?, isBlank c = false)
    (hbrace : '\x7d' ∉ list) (hpath : IsImportPath path) (ht : t = "import".toList ++ [' '] ++
      ['\x7b'] ++ [' '] ++ list ++ ['\x7d'] ++ [' '] ++ "from".toList ++ [' '] ++ ['"'] ++ path ++
      ['"'] ++ [';']) (b : Option Char) (start : Nat) (r : Text) :
    Statement.importForm.here b start (t ++ r).length (t ++ r) =
      some ⟨start, t, [some list, some ['"'], some path]⟩ := by
  have htakes : Statement.importForm.Takes b [] _ r _ :=
    takes_phrase "import"
      |>.seq (takes_chars allBlank_space (by rintro _ ⟨⟩; decide))
      |>.seq takes_lit
      |>.seq (takes_chars allBlank_space (hlist _))
      |>.seq ((takes_chars (noneOf_of_not_mem rfl hbrace) (by rintro _ ⟨⟩; decide)).group 1)
      |>.seq takes_lit
      |>.seq (takes_chars allBlank_space (by rintro _ ⟨⟩; decide))
      |>.seq (takes_phrase "from")
      |>.seq (takes_gap (by rintro _ ⟨⟩; decide))
      |>.seq ((takes_one (c := '"') (by decide)).optional.group 2)
      |>.seq ((takes_many1 hpath.ne_nil hpath.forall_mem (by rintro _ ⟨⟩; decide)).group 3)
      |>.seq (takes_again (v := ['"']) rfl)
      |>.seq_nil (takes_chars (List.forall_mem_nil _) (by rintro _ ⟨⟩; decide))
      |>.seq takes_lit.optional
  exact htakes.here (n := 3) ht rfl
    (by simp [firstTexts, List.range_succ, List.lookup_cons, Span.text]) start

/-- An export is taken as a whole where it has a line of its own. -/
theorem here_exportForm {list : Text} (hne : list ≠ []) (hbrace : '\x7d' ∉ list) (ht : t =
      "export".toList ++ [' '] ++ ['\x7b'] ++ list ++ ['\x7d'] ++ [';']) (hb : BeginsLine b)
    (hr : EndsLine r) (start : Nat) :
    Statement.exportForm.here b start (t ++ r).length (t ++ r) =
      some ⟨start, t, [some list]⟩ := by
  have hstop : ∀ c ∈ r.head?, isAmong c " \t".toList = false := by
    rcases hr with rfl | ⟨r, rfl⟩
    · exact nofun
    · rintro _ ⟨⟩
      decide
  have htakes : Statement.exportForm.Takes b [] _ r _ :=
    ((takes_lineStart hb).seq_nil (takes_chars (List.forall_mem_nil _) (by rintro _ ⟨⟩; decide)))
      |>.seq (takes_phrase "export")
      |>.seq (takes_chars allBlank_space (by rintro _ ⟨⟩; decide))
      |>.seq takes_lit
      |>.seq ((takes_many1 hne (noneOf_of_not_mem rfl hbrace) (by rintro _ ⟨⟩; decide)).group 1)
      |>.seq takes_lit
      |>.seq_nil (takes_chars (List.forall_mem_nil _) (by rintro _ ⟨⟩; decide))
      |>.seq takes_lit.optional
      |>.seq_nil (takes_chars (List.forall_mem_nil _) hstop)
      |>.seq_nil (takes_lineEnd hr)
  exact htakes.here (n := 1) ht rfl
    (by simp [firstTexts, List.range_succ, List.lookup_cons, Span.text]) start

/-! ## Passing over a line -/

/-- An import begins nowhere in an export: in front of the brace no word begins with its first
letter, and behind it the line ends before there is another brace. -/
theorem here_import_of_export {list : Text} (hbrace : '\x7b' ∉ list)
    (hz : z <:+ "export".toList ++ [' '] ++ ['\x7b'] ++ list ++ ['\x7d'] ++ [';']) (hne : z ≠ [])
    (b : Option Char) (start : Nat) (r : Text) :
    Statement.importForm.here b start (z ++ r).length (z ++ r) = none := by
  refine Option.eq_none_iff_forall_not_mem.2 fun m hm => ?_
  obtain ⟨g, x, s, r', hg, -, -, ht⟩ := exists_of_import hm
  have hfirst : ∀ c ∈ (z ++ r).head?, c = 'i' := by
    rw [ht]
    rintro _ ⟨⟩
    rfl
  obtain ⟨y, hy⟩ := hz
  have hsemicolon : ';' ∈ z := by
    have hlast := congrArg List.getLast? hy
    rw [List.getLast?_append_of_ne_nil _ hne, List.getLast?_concat] at hlast
    exact List.mem_of_mem_getLast? hlast
  have hbehind : '\x7b' ∉ z := by
    rw [List.append_assoc, List.append_assoc] at hy
    rcases List.append_eq_append_iff.1 hy with ⟨a, hfront, rfl⟩ | ⟨a, -, ha⟩
    · cases a with
      | nil => simpa using hbrace
      | cons c a =>
        have hmem : 'i' ∈ "export".toList ++ [' '] ++ ['\x7b'] := by
          rw [hfront, ← hfirst c rfl]
          simp
        exact absurd hmem (by decide)
    · intro hmem
      have hall := ha ▸ List.mem_append_right a hmem
      simp [hbrace] at hall
  -- what is in front of the brace of the import reaches over the end of the export
  have hinside : z <+: "import".toList ++ g :=
    prefix_of_append_eq hbehind (ht.trans (List.append_assoc ..).symm)
  rcases List.mem_append.1 (hinside.subset hsemicolon) with hmem | hmem
  · exact absurd hmem (by decide)
  · exact absurd (hg _ hmem) (by decide)

/-! ## The two forms -/

/-- Imports are taken, and nothing of the other lines. -/
theorem readsLines_imports (hls : ∀ l ∈ ls, l.Regular) :
    ReadsLines Statement.importForm Line.text Line.importGroups ls where
  ends hr := picksOut_imports.here_blank (u := []) (List.forall_mem_nil _) hr
  takes := by
    intro l gs b start r hl hgs _ _
    cases l with
    | imports entries path =>
      obtain ⟨hne, hentries, hpath⟩ := hls _ hl
      have hws := isEntry_importTexts hentries
      have hlist : ∀ r, ∀ c ∈ (listed (entries.map importText) ++ [' '] ++ r).head?,
          isBlank c = false := by
        intro r
        rw [List.append_assoc,
          List.head?_append_of_ne_nil _ (listed_ne_nil hws (by simpa using hne))]
        exact isBlank_head_listed hws
      cases hgs
      refine here_importForm hlist ?_ hpath (importLine_eq entries path) b start r
      simpa using not_mem_listed (by decide) (by decide) hws
    | exports es | blanks n => cases hgs
  passes := by
    intro l z b start r hl hgs hz hne hr
    cases l with
    | imports entries path => cases hgs
    | exports es =>
      have hws := isEntry_exportTexts (hls _ hl).2
      have hz : z <:+ exportLine es := hz
      rw [exportLine_eq] at hz
      refine here_import_of_export ?_ hz hne b start r
      simpa using not_mem_listed (by decide) (by decide) hws
    | blanks n =>
      exact picksOut_imports.here_blank (fun c hc => List.eq_of_mem_replicate (hz.subset hc)) hr

/-- Without imports, exports are taken, and nothing of the other lines. -/
theorem readsLines_exports (hls : ∀ l ∈ ls, l.Regular ∧ l.importGroups = none) :
    ReadsLines Statement.exportForm Line.text Line.exportGroups ls where
  ends hr := picksOut_exports.here_blank (u := []) (List.forall_mem_nil _) hr
  takes := by
    intro l gs b start r hl hgs hb hr
    cases l with
    | exports es =>
      have hws := isEntry_exportTexts (hls _ hl).1.2
      cases hgs
      refine here_exportForm (List.cons_ne_nil _ _) ?_ (exportLine_eq es) hb hr start
      simpa using not_mem_listed (by decide) (by decide) hws
    | imports entries path | blanks n => cases hgs
  passes := by
    intro l z b start r hl hgs hz hne hr
    cases l with
    | imports entries path => exact absurd (hls _ hl).2 (Option.some_ne_none _)
    | exports es => cases hgs
    | blanks n =>
      exact picksOut_exports.here_blank (fun c hc => List.eq_of_mem_replicate (hz.subset hc)) hr

/-! ## Reading the entries -/

theorem IsPlainPath.sign_not_mem (h : IsPlainPath p) : '@' ∉ p := fun hmem =>
  (h.2 _ hmem).2 (by decide)

theorem replaceFirst_of_not_mem {c : Char} (hc : c ∉ t) (w : Text) :
    Text.replaceFirst [c] w t = t := by
  induction t with
  | nil => rfl
  | cons d t ih =>
    obtain ⟨hcd, hct⟩ := not_or.1 (mt List.mem_cons.2 hc)
    have hprefix : ¬ List.isPrefixOf [c] (d :: t) = true := by
      rw [List.isPrefixOf_iff_prefix, List.cons_prefix_cons]
      exact fun h => hcd h.1
    rw [Text.replaceFirst, if_neg hprefix, ih hct]

/-- The sign stands for the library, and there is no other. -/
theorem replaceFirst_eq_expanded (h : IsImportPath p) (library : Text) :
    Text.replaceFirst ['@'] library p = expanded library p := by
  rcases h.exists_plain with h | ⟨q, -, rfl⟩
  · have hsign := h.sign_not_mem
    rw [replaceFirst_of_not_mem hsign]
    unfold expanded
    split
    · exact absurd List.mem_cons_self hsign
    · rfl
  · rfl

/-- The entries of an import are read as they were written. -/
theorem importEntries_eq (hne : entries ≠ []) (h : ∀ e ∈ entries, IsImportEntry e)
    (hp : IsImportPath p) (path library t : Text) (start : Nat) (q : Option Text) :
    Pass.importEntries path library
        ⟨start, t, [some (listed (entries.map importText) ++ [' ']), q, some p]⟩ =
      .ok ((Line.imports entries p).imported library) := by
  have hws := isEntry_importTexts h
  have htexts : entries.map importText ≠ [] := by simpa using hne
  have htrim : Text.trim (listed (entries.map importText) ++ [' ']) =
      listed (entries.map importText) :=
    trim_listed (b := []) hws (List.forall_mem_nil _) allBlank_space
  have hlist : Statement.entries (listed (entries.map importText) ++ [' ']) =
      entries.map importText :=
    entries_listed (b := []) htexts hws (List.forall_mem_nil _) allBlank_space
  have hentry : ∀ e ∈ entries, Pass.importEntry path (expanded library p) (importText e) =
      .ok { name := e.1, path := expanded library p, aliasName := e.2 } := by
    intro e he
    rw [Pass.importEntry, search_importText (h e he)]
    rfl
  have hfull : (listed (entries.map importText)).isEmpty = false := by
    simpa using listed_ne_nil hws htexts
  show (if (Text.trim (listed (entries.map importText) ++ [' '])).isEmpty then _ else
    (Statement.entries (listed (entries.map importText) ++ [' '])).mapM
      (Pass.importEntry path (Text.replaceFirst ['@'] library p))) = _
  rw [htrim, hfull, hlist, replaceFirst_eq_expanded hp, List.mapM_map]
  exact Precedence.mapM_eq_pure hentry

/-- The entries of an export are read as they were written, and nothing is renamed. -/
theorem mapM_exportEntry_eq (hne : es ≠ []) (h : ∀ e ∈ es, IsIdentifier e.name) (path : Text) :
    (Statement.entries ([' '] ++ (listed (es.map Export.text) ++ [' ']))).mapM
      (Pass.exportEntry path) = pure es := by
  have hentry : ∀ e ∈ es, Pass.exportEntry path e.text = pure e := by
    intro e he
    funext code
    rw [Pass.exportEntry_apply (search_exportText (h e he))]
    obtain ⟨name, _ | _⟩ := e <;> rfl
  rw [entries_listed (by simpa using hne) (isEntry_exportTexts h) allBlank_space allBlank_space,
    List.mapM_map]
  exact (Precedence.mapM_eq_pure hentry).trans (by rw [List.map_id'])

/-! ## The passes -/

theorem text_blanked {groups : Line → Option (List (Option Text))} (h : groups l ≠ none) :
    (l.blanked groups).text = List.replicate l.text.length ' ' := by
  rw [Line.blanked, if_pos (Option.isSome_iff_ne_none.2 h)]
  rfl

theorem blanked_of_none {groups : Line → Option (List (Option Text))} (h : groups l = none) :
    l.blanked groups = l := by
  rw [Line.blanked, h]
  rfl

/-- The imports of the lines are read in order, and blanked. -/
theorem imports_lined (hpath : firstSegment path ≠ []) (hls : ∀ l ∈ ls, l.Regular) :
    Pass.imports path (lined Line.text ls) =
      (.ok (ls.flatMap (Line.imported (firstSegment path))),
        lined Line.text (ls.map (Line.blanked Line.importGroups))) := by
  let code := lined Line.text ls
  let ms := lineMatches Line.text Line.importGroups 0 ls
  have hlibrary : libraryOf path = .ok (firstSegment path) := libraryOf_eq_ok_iff.2 ⟨rfl, hpath⟩
  have hfirst : (ofExcept (libraryOf path) : Pass Text) code = (.ok (firstSegment path), code) := by
    rw [hlibrary]
    rfl
  have hget : (get : Pass Text) code = (.ok code, code) := rfl
  have hfound : Statement.importForm.sequence code = ms := (readsLines_imports hls).sequence_eq
  have hblank : blankAll ms code = lined Line.text (ls.map (Line.blanked Line.importGroups)) :=
    blankAll_lineMatches (fun _ => text_blanked) (fun _ => blanked_of_none) [] ls
  obtain ⟨xss, hxss, hvalues⟩ : ∃ xss, ms.mapM (Pass.importEntries path (firstSegment path)) =
      .ok xss ∧ xss.flatten = ls.flatMap (Line.imported (firstSegment path)) := by
    refine exists_mapM_lineMatches ?_ ?_ 0
    · intro l hl gs start hgs
      cases l with
      | imports entries p =>
        obtain ⟨hne, hentries, hp⟩ := hls _ hl
        cases hgs
        exact importEntries_eq hne hentries hp path _ _ start _
      | exports es | blanks n => cases hgs
    · intro l _ hgs
      cases l with
      | imports entries p => cases hgs
      | exports es | blanks n => rfl
  unfold Pass.imports
  rw [bind_apply, hfirst]
  simp only
  rw [bind_apply, hget]
  simp only [hfound]
  rw [bind_apply, Pass.mapM_clear hxss, hblank]
  simp only
  rw [hvalues]
  rfl

/-- The exports of the lines are read in order, and blanked. -/
theorem exports_lined (hls : ∀ l ∈ ls, l.Regular ∧ l.importGroups = none) (path : Text) :
    Pass.exports path (lined Line.text ls) =
      (.ok (ls.flatMap Line.exported),
        lined Line.text (ls.map (Line.blanked Line.exportGroups))) := by
  let code := lined Line.text ls
  let ms := lineMatches Line.text Line.exportGroups 0 ls
  have hget : (get : Pass Text) code = (.ok code, code) := rfl
  have hfound : Statement.exportForm.sequence code = ms := (readsLines_exports hls).sequence_eq
  have hblank : blankAll ms code = lined Line.text (ls.map (Line.blanked Line.exportGroups)) :=
    blankAll_lineMatches (fun _ => text_blanked) (fun _ => blanked_of_none) [] ls
  obtain ⟨xss, hxss, hvalues⟩ : ∃ xss, (ms.mapM fun m =>
      (Statement.entries (m.group 1)).mapM (Pass.exportEntry path)) = pure xss ∧
        xss.flatten = ls.flatMap Line.exported := by
    refine exists_mapM_lineMatches ?_ ?_ 0
    · intro l hl gs start hgs
      cases l with
      | exports es =>
        obtain ⟨hne, hes⟩ := (hls _ hl).1
        cases hgs
        exact mapM_exportEntry_eq hne hes path
      | imports entries p | blanks n => cases hgs
    · intro l _ hgs
      cases l with
      | exports es => cases hgs
      | imports entries p | blanks n => rfl
  unfold Pass.exports
  rw [bind_apply, hget]
  simp only [hfound]
  rw [bind_apply]
  show (match (ms.forM fun m => Pass.clear m.start m.stop) code with | _ => _) = _
  rw [Pass.forM_clear, hblank, hxss]
  rw [← hvalues]
  rfl

theorem Line.Regular.blanked (h : l.Regular) :
    (l.blanked Line.importGroups).Regular ∧
      (l.blanked Line.importGroups).importGroups = none := by
  cases l with
  | imports entries p => exact ⟨trivial, rfl⟩
  | exports es | blanks n => exact ⟨h, rfl⟩

theorem flatMap_exported_blanked (ls : List Line) :
    (ls.map (Line.blanked Line.importGroups)).flatMap Line.exported = ls.flatMap Line.exported := by
  rw [List.flatMap_map]
  refine congrArg (List.flatMap · ls) (funext fun l => ?_)
  cases l <;> rfl

/-- When imports and exports have been taken out, blanks are left of each line. -/
theorem allBlank_blanked (l : Line) :
    AllBlank ((l.blanked Line.importGroups).blanked Line.exportGroups).text := by
  obtain ⟨n, hn⟩ : ∃ n, (l.blanked Line.importGroups).blanked Line.exportGroups = .blanks n := by
    cases l <;> exact ⟨_, rfl⟩
  rw [hn]
  intro c hc
  rw [List.eq_of_mem_replicate hc]
  decide

/-- Imports and exports that are written one to a line, in any order, are read as they were written:
the entries come back in order, with their other names and with what is internal, the sign in a path
stands for the library of the module, and nothing but blanks is left. -/
theorem statements_of_lined (hpath : firstSegment path ≠ []) (hls : ∀ l ∈ ls, l.Regular) :
    ∃ left, AllBlank left ∧
      (do let imports ← Pass.imports path
          let exports ← Pass.exports path
          return (imports, exports) : Pass (List Import × List Export)) (lined Line.text ls) =
        (.ok (ls.flatMap (Line.imported (firstSegment path)), ls.flatMap Line.exported), left) := by
  let unread := ls.map (Line.blanked Line.importGroups)
  have hunread : ∀ l ∈ unread, l.Regular ∧ l.importGroups = none :=
    List.forall_mem_map.2 fun l hl => (hls l hl).blanked
  refine ⟨lined Line.text (unread.map (Line.blanked Line.exportGroups)), ?_, ?_⟩
  · refine forall_mem_join (List.forall_mem_singleton.2 isBlank_newline) ?_
    refine List.forall_mem_map.2 (List.forall_mem_map.2 (List.forall_mem_map.2 fun l _ => ?_))
    exact allBlank_blanked l
  · rw [bind_apply, imports_lined hpath hls]
    simp only
    rw [bind_apply, exports_lined hunread, flatMap_exported_blanked]
    rfl

/-- Lines of a module in which names are words of the notation. -/
def sampleLines : List Line :=
  [.imports [("import".toList, some "from".toList), ("as".toList, none)] "@a/b".toList,
    .exports [{ name := "internal".toList, isInternal := true }, { name := "as".toList }],
    .blanks 0,
    .imports [("as".toList, some "as".toList)] "x".toList,
    .exports [{ name := "internal".toList }, { name := "import".toList, isInternal := true }]]

example : sampleLines.map Line.text =
    ["import \x7b import as from, as \x7d from \"@a/b\";".toList,
      "export \x7b internal internal, as \x7d;".toList, [],
      "import \x7b as as as \x7d from \"x\";".toList,
      "export \x7b internal, internal import \x7d;".toList] := by decide +kernel

theorem statements_of_lined_keywords :
    firstSegment "lib/m".toList ≠ [] ∧ (∀ l ∈ sampleLines, l.Regular) ∧
      ∃ left, AllBlank left ∧
        (do let imports ← Pass.imports "lib/m".toList
            let exports ← Pass.exports "lib/m".toList
            return (imports, exports) : Pass (List Import × List Export))
          (lined Line.text sampleLines) =
        (.ok ([{ name := "import".toList, path := "liba/b".toList, aliasName := "from".toList },
            { name := "as".toList, path := "liba/b".toList },
            { name := "as".toList, path := "x".toList, aliasName := "as".toList }],
          [{ name := "internal".toList, isInternal := true }, { name := "as".toList },
            { name := "internal".toList }, { name := "import".toList, isInternal := true }]),
          left) := by
  have hpath : firstSegment "lib/m".toList ≠ [] := by decide
  have hls : ∀ l ∈ sampleLines, l.Regular := by decide
  exact ⟨hpath, hls, statements_of_lined hpath hls⟩

end ShaderLink
