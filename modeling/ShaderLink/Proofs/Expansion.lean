import Mathlib.Data.List.Nodup
import ShaderLink.Proofs.Entries
import ShaderLink.Proofs.NewNames

/-!
# Expanding a namespace import

What becomes of a text with one namespace import is known exactly (`OneImport.expand_eq`).  Its uses
are bound to imports of their own if and only if no two of them share an alias and none occurs in
one that is replaced later (`bound_iff`): what a use becomes can be read off the result, since uses
stay apart (`write_injective`).
-/

namespace ShaderLink

open Text Pattern

namespace Text

theorem replaceFirst_append {old u t : Text} (hold : old ≠ [])
    (hu : ∀ y z, u = y ++ z → z ≠ [] → ¬ old <+: z ++ (old ++ t)) (new : Text) :
    replaceFirst old new (u ++ (old ++ t)) = u ++ (new ++ t) := by
  induction u with
  | nil =>
    obtain ⟨c, r, rfl⟩ := List.exists_cons_of_ne_nil hold
    have hpre : (c :: r).isPrefixOf (c :: (r ++ t)) = true :=
      List.isPrefixOf_iff_prefix.2 (List.prefix_append (c :: r) t)
    have hdrop : (c :: (r ++ t)).drop (c :: r).length = t := List.drop_left
    rw [List.nil_append, List.cons_append, replaceFirst, if_pos hpre, hdrop, List.nil_append]
  | cons c u ih =>
    have hpre : ¬ old.isPrefixOf (c :: (u ++ (old ++ t))) = true := fun h =>
      hu [] (c :: u) rfl (List.cons_ne_nil c u) (List.isPrefixOf_iff_prefix.1 h)
    rw [List.cons_append, replaceFirst, if_neg hpre, List.cons_append,
      ih fun y z hyz => hu (c :: y) z (congrArg (c :: ·) hyz)]

end Text

namespace Namespaces

variable {name path t t' u v x y : Text} {m : Match} {us : List Text} {f g : Text → Text}
  {ps qs : List (Char ⊕ Text)}

/-! ## What uses become can be read off -/

theorem opensWord_write_append (h : opensWord (write id qs ++ t) = false)
    (hqs : ∀ use, .inr use ∈ qs → opensWord use = true) (ht : opensWord t = true ∨ t' = []) :
    opensWord (write f qs ++ t') = false := by
  match qs with
  | [] =>
    rcases ht with ht | rfl
    · exact absurd (h.symm.trans ht) (by decide)
    · rfl
  | .inl c :: qs => exact h
  | .inr use :: qs =>
    have huse := hqs use List.mem_cons_self
    rw [write_inr, List.append_assoc, id, opensWord_append (ne_nil_of_opensWord huse), huse] at h
    cases h

/-- Whether uses go on can be seen in front of the next one. -/
theorem Ends.write_append (h : Ends (write id qs ++ t))
    (hqs : ∀ use, .inr use ∈ qs → opensWord use = true) (ht : opensWord t = true ∨ t' = []) :
    Ends (write f qs ++ t') := by
  refine ⟨opensWord_write_append h.1 hqs ht, fun r hr => ?_⟩
  match qs with
  | [] =>
    rcases ht with ht | rfl
    · exact absurd (h.1.symm.trans ht) (by decide)
    · cases hr
  | .inl c :: qs =>
    obtain ⟨rfl, rfl⟩ := List.cons.inj hr
    exact opensWord_write_append (h.2 _ rfl)
      (fun use huse => hqs use (List.mem_cons_of_mem _ huse)) ht
  | .inr use :: qs =>
    have huse := hqs use List.mem_cons_self
    have hopen := h.1
    rw [write_inr, List.append_assoc, id, opensWord_append (ne_nil_of_opensWord huse),
      huse] at hopen
    cases hopen

/-- Words stand in the text, with dots between them. -/
def Dotted (t : Text) : Prop := opensWord t = true ∧
  ∀ x c y, t = x ++ c :: y → isWord c = false → c = '.' ∧ opensWord y = true

theorem IsIdentifier.dotted {w : Text} (hw : IsIdentifier w) : Dotted w := by
  refine ⟨by simpa using hw.opensWord [], ?_⟩
  rintro x c y rfl hc
  have hword := hw.2 c (List.mem_append_right x List.mem_cons_self)
  rw [hc] at hword
  cases hword

theorem dotted_append_dotted {ws : List Text} (hws : ∀ w ∈ ws, IsIdentifier w) {w : Text}
    (hw : IsIdentifier w) : Dotted (w ++ dotted ws) := by
  refine ⟨hw.opensWord _, ?_⟩
  induction ws generalizing w with
  | nil =>
    rw [dotted_nil, List.append_nil]
    exact (IsIdentifier.dotted hw).2
  | cons v ws ih =>
    rw [List.forall_mem_cons] at hws
    intro x c y h hc
    rw [dotted_cons, List.cons_append] at h
    rcases List.append_eq_append_iff.1 h with ⟨a, rfl, ha⟩ | ⟨a, rfl, ha⟩
    · cases a with
      | nil =>
        obtain ⟨rfl, rfl⟩ := List.cons.inj ha
        exact ⟨rfl, hws.1.opensWord _⟩
      | cons d a => exact ih hws.2 hws.1 a c y (List.cons.inj ha).2 hc
    · cases a with
      | nil =>
        obtain ⟨rfl, rfl⟩ := List.cons.inj ha
        exact ⟨rfl, hws.1.opensWord _⟩
      | cons d a =>
        obtain ⟨rfl, -⟩ := List.cons.inj ha
        have hword := hw.2 c (List.mem_append_right x List.mem_cons_self)
        rw [hc] at hword
        cases hword

theorem IsUse.dotted (hname : IsIdentifier name) {use : Text} (h : IsUse name use) :
    Dotted use := by
  obtain ⟨ws, -, hws, rfl⟩ := h
  exact dotted_append_dotted hws hname

theorem Dotted.turned (h : Dotted t) (ht : Turned false t t') : Dotted t' := by
  refine ⟨ht.opensWord_eq.trans h.1, ?_⟩
  rintro x c y rfl hc
  obtain ⟨x', z, rfl, -, hz⟩ := ht.exists_of_append
  generalize x.getLast?.elim false isWord = b at hz
  cases hz with
  | keep _ _ hz =>
    rw [hc] at hz
    obtain ⟨rfl, hy⟩ := h.2 x' c _ rfl hc
    exact ⟨rfl, hz.opensWord_eq.trans hy⟩
  | turn hz => exact absurd hc (by decide)

theorem Dotted.not_mem (h : Dotted t) {c : Char} (hc : isWord c = false) (hdot : c ≠ '.') :
    c ∉ t := by
  intro hmem
  obtain ⟨x, y, rfl⟩ := List.append_of_mem hmem
  exact hdot (h.2 x c y rfl hc).1

/-- Two texts that may stand in the same place agree if what follows goes on from neither. -/
theorem Dotted.unique {w w' : Text} (hw : Dotted w) (hw' : Dotted w') (ht : Ends t) (ht' : Ends t')
    (h : w ++ t = w' ++ t') : w = w' ∧ t = t' := by
  have hlonger : ∀ {w a t t' : Text}, Dotted (w ++ a) → Ends t → t = a ++ t' → a = [] := by
    intro w a t t' hwa ht hta
    by_contra hne
    obtain ⟨c, a, rfl⟩ := List.exists_cons_of_ne_nil hne
    subst hta
    obtain ⟨rfl, ha⟩ := hwa.2 w c a rfl ht.1
    have hopen : opensWord (a ++ t') = false := ht.2 _ rfl
    rw [opensWord_append (ne_nil_of_opensWord ha), ha] at hopen
    cases hopen
  rcases List.append_eq_append_iff.1 h with ⟨a, rfl, hta⟩ | ⟨a, rfl, hta⟩
  · obtain rfl := hlonger hw' ht hta
    exact ⟨(List.append_nil w).symm, hta⟩
  · obtain rfl := hlonger hw ht' hta
    exact ⟨List.append_nil w', hta.symm⟩

/-- What is written in the places can be read off, up to the last of them. -/
theorem write_injective (hps : ∀ use, .inr use ∈ ps → opensWord use = true)
    (hends : ∀ qs use qs', ps = qs ++ .inr use :: qs' → Ends (write id qs' ++ t))
    (hf : ∀ use, .inr use ∈ ps → Dotted (f use)) (hg : ∀ use, .inr use ∈ ps → Dotted (g use))
    (hx : opensWord t = true ∨ x = []) (hy : opensWord t = true ∨ y = [])
    (h : write f ps ++ x = write g ps ++ y) :
    x = y ∧ ∀ use, .inr use ∈ ps → f use = g use := by
  induction ps with
  | nil => exact ⟨h, fun _ h => nomatch h⟩
  | cons p ps ih =>
    have hps' : ∀ use, .inr use ∈ ps → opensWord use = true :=
      fun use huse => hps use (List.mem_cons_of_mem p huse)
    have ih := ih hps' (fun qs use qs' hqs => hends (p :: qs) use qs' (congrArg (p :: ·) hqs))
      (fun use huse => hf use (List.mem_cons_of_mem p huse))
      (fun use huse => hg use (List.mem_cons_of_mem p huse))
    match p with
    | .inl c =>
      obtain ⟨hxy, hsame⟩ := ih (List.cons.inj h).2
      exact ⟨hxy, fun use huse => hsame use ((List.mem_cons.1 huse).resolve_left nofun)⟩
    | .inr use =>
      rw [write_inr, write_inr, List.append_assoc, List.append_assoc] at h
      have hrest := hends [] use ps rfl
      obtain ⟨huse, h⟩ := (hf use List.mem_cons_self).unique (hg use List.mem_cons_self)
        (hrest.write_append hps' hx) (hrest.write_append hps' hy) h
      obtain ⟨hxy, hsame⟩ := ih h
      refine ⟨hxy, fun use' huse' => ?_⟩
      rcases List.mem_cons.1 huse' with hcons | hmem
      · cases hcons
        exact huse
      · exact hsame use' hmem

/-! ## What becomes of the text -/

/-- A text with one import of a namespace, which is found as `m` between `u` and `v`, and with the
uses of the namespace outside of it. -/
structure OneImport (u : Text) (m : Match) (v : Text) : Prop where
  found : statementForm.search (u ++ m.text ++ v) = some m
  start : m.start = u.length
  last : statementForm.search v = none
  /-- Without uses the import is only taken out, and this puts no other one together. -/
  joined : usages (m.group 3) (u ++ m.text ++ v) = [] → statementForm.search (u ++ v) = none
  plainPath : '.' ∉ m.group 2
  apart : parts (m.group 3) (u ++ m.text ++ v) =
    parts (m.group 3) u ++ m.text.map .inl ++ parts (m.group 3) v

theorem Turned.closed {b : Bool} (h : Turned b t t') (ht : Closed t) : Closed t' := by
  rintro v ⟨x, rfl⟩ hv
  obtain ⟨y, z, rfl, -, hz⟩ := h.exists_of_append
  exact ht z ⟨y, rfl⟩ (hz.begins hv)

theorem block_eq (i : Text × List Text) :
    ∃ r, block i = "import".toList ++ (' ' :: '\x7b' :: r) := by
  have h := block_append i.1 i.2 []
  rw [List.append_nil] at h
  exact ⟨_, h⟩

theorem blocks_eq {imports : List (Text × List (Text × Text))} (h : imports ≠ []) :
    ∃ r, blocks imports = "import".toList ++ (' ' :: '\x7b' :: r) := by
  obtain ⟨i, is, rfl⟩ := List.exists_cons_of_ne_nil h
  obtain ⟨r, hr⟩ := block_eq (i.1, i.2.map entryText)
  obtain ⟨s, hs⟩ : ∃ s, blocks (i :: is) = block (i.1, i.2.map entryText) ++ s :=
    ⟨_, join_cons ..⟩
  rw [hs, hr, List.append_assoc]
  exact ⟨r ++ s, rfl⟩

theorem importsOf_ne_nil (path : Text) (h : us ≠ []) : importsOf path us ≠ [] := by
  intro hnil
  have hperm := entries_importsOf path us
  rw [hnil] at hperm
  exact h (List.map_eq_nil_iff.1 (List.nil_perm.1 hperm))

namespace OneImport

variable (h : OneImport u m v)
include h

theorem exists_statement : ∃ x : Statement, m.text = x.text ∧ m.group 2 = x.path ∧
    m.group 3 = x.name ∧ ∀ y z, u = y ++ z → z ≠ [] → ¬ Begins (z ++ (m.text ++ v)) := by
  obtain ⟨u', v', x, hcode, hstart, htext, hpath, hname, hfirst⟩ := exists_of_search h.found
  rw [List.append_assoc] at hcode
  obtain ⟨rfl, hrest⟩ := List.append_inj hcode (h.start.symm.trans hstart)
  exact ⟨x, htext, hpath, hname, List.append_cancel_left hrest ▸ hfirst⟩

theorem isIdentifier : IsIdentifier (m.group 3) := by
  obtain ⟨x, -, -, hname, -⟩ := h.exists_statement
  exact hname ▸ x.isIdentifier

theorem isBlank_path : ∀ c ∈ m.group 2, isBlank c = false := by
  obtain ⟨x, -, hpath, -, -⟩ := h.exists_statement
  exact hpath ▸ x.isBlank_path

theorem exists_text : ∃ r, m.text = "import".toList ++ r := by
  obtain ⟨x, htext, -, -, -⟩ := h.exists_statement
  obtain ⟨y, -, hy⟩ := x.begins []
  rw [List.append_nil] at hy
  exact ⟨y, htext.trans hy⟩

theorem isUse : ∀ use ∈ usages (m.group 3) (u ++ m.text ++ v), IsUse (m.group 3) use :=
  isUse_of_mem_usages h.isIdentifier

theorem mem_uses {use : Text} : use ∈ usages (m.group 3) (u ++ m.text ++ v) ↔
    .inr use ∈ parts (m.group 3) u ∨ .inr use ∈ parts (m.group 3) v := by
  rw [mem_usages, h.apart]
  simp

variable (hus : ∀ use ∈ us, IsUse (m.group 3) use)
include hus

theorem applyAliases_text : applyAliases us (u ++ m.text ++ v) =
    applyAliases us u ++ (m.text ++ applyAliases us v) := by
  rw [applyAliases_eq h.isIdentifier hus (u ++ m.text ++ v), h.apart, write_append,
    write_append, write_map_inl, ← applyAliases_eq h.isIdentifier hus,
    ← applyAliases_eq h.isIdentifier hus, List.append_assoc]

/-- No import begins in front of the one that is found, also when uses were replaced. -/
theorem not_begins_front (hyz : applyAliases us u = y ++ x) (hx : x ≠ []) :
    ¬ Begins (x ++ (m.text ++ applyAliases us v)) := by
  obtain ⟨_, -, -, -, hfirst⟩ := h.exists_statement
  have hu := turned_applyAliases h.isIdentifier hus u
  have hv := turned_applyAliases h.isIdentifier hus v
  rw [hyz] at hu
  obtain ⟨y', x', hcut, -, hx'⟩ := hu.exists_of_append
  intro hbegins
  exact hfirst y' x' hcut (mt hx'.eq_nil_iff.2 hx)
    ((hx'.append ((Turned.refl false m.text).append hv)).begins hbegins)

theorem expandOne_eq (hused : usages (m.group 3) (u ++ m.text ++ v) = us) :
    (expandOne m (u ++ m.text ++ v)).1 =
      applyAliases us u ++ (blocks (importsOf (m.group 2) us) ++ applyAliases us v) := by
  obtain ⟨x, htext, -, -, -⟩ := h.exists_statement
  obtain ⟨r, hr⟩ := h.exists_text
  have hne : m.text ≠ [] := by
    rw [hr]
    exact List.cons_ne_nil _ _
  have hfirst : ∀ y z, applyAliases us u = y ++ z → z ≠ [] →
      ¬ m.text <+: z ++ (m.text ++ applyAliases us v) := by
    rintro y z hyz hz ⟨s, hs⟩
    refine h.not_begins_front hus hyz hz ?_
    rw [← hs, htext]
    exact x.begins s
  rw [expandOne, hused, h.applyAliases_text hus, join_blocks_eq]
  exact replaceFirst_append hne hfirst _

/-- No import is left. -/
theorem closed_expandOne (hused : usages (m.group 3) (u ++ m.text ++ v) = us) :
    Closed (applyAliases us u ++ (blocks (importsOf (m.group 2) us) ++ applyAliases us v)) := by
  by_cases hnil : us = []
  · subst hnil
    exact search_eq_none_iff.1 (h.joined hused)
  · have hv := (turned_applyAliases h.isIdentifier hus v).closed (search_eq_none_iff.1 h.last)
    refine closed_append (closed_blocks_importsOf h.isIdentifier h.isBlank_path hus hv)
      fun y z hyz hz hbegins => ?_
    obtain ⟨r, hr⟩ := blocks_eq (importsOf_ne_nil (m.group 2) hnil)
    obtain ⟨r', hr'⟩ := h.exists_text
    have hbrace : Begins
        (z ++ ("import".toList ++ (' ' :: '\x7b' :: (r ++ applyAliases us v)))) := by
      rw [hr, List.append_assoc] at hbegins
      exact hbegins
    refine h.not_begins_front hus hyz hz ?_
    rw [hr', List.append_assoc]
    exact begins_of_brace hbrace _

omit hus in
/-- The uses are replaced, the import gives way to the imports of what is used, and no more is
done. -/
theorem expand_eq (hused : usages (m.group 3) (u ++ m.text ++ v) = us) :
    (expand (u ++ m.text ++ v)).1 =
      applyAliases us u ++ (blocks (importsOf (m.group 2) us) ++ applyAliases us v) := by
  have hus := hused ▸ h.isUse
  have hdone := search_eq_none_iff.2 (h.closed_expandOne hus hused)
  have hround := h.expandOne_eq hus hused
  obtain ⟨r, hr⟩ := h.exists_text
  have hlength : (u ++ m.text ++ v).length ≠ 0 := by simp [hr]
  obtain ⟨fuel, hfuel⟩ := Nat.exists_eq_succ_of_ne_zero hlength
  have hone : ∀ fuel, (expandFrom fuel (expandOne m (u ++ m.text ++ v)).1).1 =
      (expandOne m (u ++ m.text ++ v)).1 := by
    intro fuel
    cases fuel with
    | zero => rfl
    | succ fuel => rw [expandFrom, hround, hdone]
  rw [expand, expandFrom, h.found]
  exact (hone _).trans hround

end OneImport

/-! ## Binding uses -/

/-- The names bind the uses of a namespace: each use has a name of its own, under which one entry
imports what the use refers to, and no other entry imports anything. -/
structure Binds (name path : Text) (imports : List (Text × List (Text × Text)))
    (uses : List Text) (names : Text → Text) : Prop where
  isIdentifier : ∀ use ∈ uses, IsIdentifier (names use)
  injective : ∀ use ∈ uses, ∀ use' ∈ uses, names use = names use' → use = use'
  imported : ∀ use ∈ uses, ∃ cs n, Names name cs n use ∧
    (entries imports).filter (fun e => e.2.2 == names use) =
      [(Text.join ['/'] (path :: cs), n, names use)]

/-- The uses of a namespace in two texts are bound by the import statements between them, and the
texts are the same otherwise. -/
def Bound (name path u v : Text) (uses : List Text) (result : Text) : Prop :=
  ∃ names imports, Binds name path imports uses names ∧
    result = write names (parts name u) ++ (blocks imports ++ write names (parts name v))

/-- Uses with aliases of their own are bound by the entries for them. -/
theorem binds_aliasOf (hname : IsIdentifier name) (path : Text) {uses : List Text}
    (huses : ∀ use ∈ uses, IsUse name use) (hnodup : (uses.map aliasOf).Nodup) :
    Binds name path (importsOf path uses) uses aliasOf := by
  refine ⟨fun use huse => (huses use huse).isIdentifier_aliasOf hname,
    fun _ huse _ huse' => List.inj_on_of_nodup_map hnodup huse huse', fun use huse => ?_⟩
  obtain ⟨cs, n, hnames⟩ := (huses use huse).exists_names
  refine ⟨cs, n, hnames, List.perm_singleton.1 ?_⟩
  have hcount : uses.filter (fun use' => aliasOf use' == aliasOf use) = [use] := by
    have hcongr : ∀ use' ∈ uses, (aliasOf use' == aliasOf use) = (use' == use) := by
      intro use' huse'
      by_cases he : use' = use
      · rw [he, beq_self_eq_true, beq_self_eq_true]
      · rw [beq_false_of_ne he, beq_false_of_ne fun h =>
          he (List.inj_on_of_nodup_map hnodup huse' huse h)]
    rw [List.filter_congr hcongr, List.filter_beq,
      List.count_eq_one_of_mem (List.Nodup.of_map aliasOf hnodup) huse]
    rfl
  have hperm := (entries_importsOf path uses).filter fun e => e.2.2 == aliasOf use
  rw [List.filter_map, Function.comp_def, hcount, List.map_singleton, hnames.moduleOf_eq hname,
    hnames.nameOf_eq hname] at hperm
  exact hperm

theorem count_write (c : Char) (hfg : ∀ use, .inr use ∈ ps → c ∉ f use ∧ c ∉ g use) :
    (write f ps).count c = (write g ps).count c := by
  induction ps with
  | nil => rfl
  | cons p ps ih =>
    have ih := ih fun use huse => hfg use (List.mem_cons_of_mem p huse)
    match p with
    | .inl d => rw [write_inl, write_inl, List.count_cons, List.count_cons, ih]
    | .inr use =>
      obtain ⟨hf, hg⟩ := hfg use List.mem_cons_self
      rw [write_inr, write_inr, List.count_append, List.count_append, ih,
        List.count_eq_zero.2 hf, List.count_eq_zero.2 hg]

theorem block_eq_concat (i : Text × List Text) : ∃ r, block i = r ++ [';'] := by
  have hending : "\";".toList = ['"'] ++ [';'] := rfl
  unfold block
  simp only [hending, ← List.append_assoc]
  exact ⟨_, rfl⟩

/-- Import statements end with a semicolon. -/
theorem blocks_eq_concat {imports : List (Text × List (Text × Text))} (h : imports ≠ []) :
    ∃ r, blocks imports = r ++ [';'] := by
  induction imports with
  | nil => exact absurd rfl h
  | cons i is ih =>
    have hblocks : blocks (i :: is) = block (i.1, i.2.map entryText) ++
        (if is.map (fun i => block (i.1, i.2.map entryText)) = [] then []
          else ['\n'] ++ blocks is) := join_cons ..
    rw [hblocks]
    by_cases his : is = []
    · obtain ⟨r, hr⟩ := block_eq_concat (i.1, i.2.map entryText)
      exact ⟨r, by rw [if_pos (List.map_eq_nil_iff.2 his), List.append_nil, hr]⟩
    · obtain ⟨r, hr⟩ := ih his
      refine ⟨block (i.1, i.2.map entryText) ++ (['\n'] ++ r), ?_⟩
      rw [if_neg (mt List.map_eq_nil_iff.1 his), hr]
      simp only [List.append_assoc]

/-- Where import statements end can be told by counting semicolons. -/
theorem blocks_append_inj {imports imports' : List (Text × List (Text × Text))}
    (hcount : x.count ';' = y.count ';') (h : blocks imports ++ x = blocks imports' ++ y) :
    x = y := by
  have hlonger : ∀ {imports : List (Text × List (Text × Text))} {a b x y : Text},
      blocks imports = b ++ a → x = a ++ y → x.count ';' = y.count ';' → a = [] := by
    intro imports a b x y hb hx hcount
    by_contra hne
    have hne' : imports ≠ [] := by
      rintro rfl
      exact hne (List.append_eq_nil_iff.1 hb.symm).2
    obtain ⟨r, hr⟩ := blocks_eq_concat hne'
    have hlast : ';' ∈ a := by
      have hsome := congrArg List.getLast? (hb.symm.trans hr)
      rw [List.getLast?_append, List.getLast?_concat, List.getLast?_eq_some_getLast hne,
        Option.some_or] at hsome
      exact Option.some.inj hsome ▸ List.getLast_mem hne
    have hpos := List.count_pos_iff.2 hlast
    rw [hx, List.count_append] at hcount
    omega
  rcases List.append_eq_append_iff.1 h with ⟨a, ha, hx⟩ | ⟨a, ha, hy⟩
  · rw [hlonger ha hx hcount] at hx
    exact hx
  · rw [hlonger ha hy hcount.symm] at hy
    exact hy.symm

/-! ## When all uses are bound -/

theorem write_congr (h : ∀ use, .inr use ∈ ps → f use = g use) : write f ps = write g ps := by
  refine List.flatMap_congr fun p hp => ?_
  match p with
  | .inl c => rfl
  | .inr use => exact h use hp

theorem pairwise_of_split {α : Type} {R : α → α → Prop} {l : List α}
    (h : ∀ pre a post, l = pre ++ a :: post → ∀ b ∈ pre, R b a) : l.Pairwise R := by
  induction l with
  | nil => exact .nil
  | cons b l ih =>
    refine List.pairwise_cons.2 ⟨fun a ha => ?_, ih fun pre a post hl c hc =>
      h (b :: pre) a post (congrArg (b :: ·) hl) c (List.mem_cons_of_mem b hc)⟩
    obtain ⟨pre, post, rfl⟩ := List.append_of_mem ha
    exact h (b :: pre) a post rfl b List.mem_cons_self

theorem eq_of_split {l pre post pre' post' : List Text} {a : Text} (hl : l.Nodup)
    (h : l = pre ++ a :: post) (h' : l = pre' ++ a :: post') : pre = pre' := by
  have htake : ∀ {pre post}, l = pre ++ a :: post → l.takeWhile (· != a) = pre := by
    rintro pre post rfl
    have hne : ∀ b ∈ pre, (b != a) = true := fun b hb =>
      bne_iff_ne.2 ((List.nodup_append.1 hl).2.2 b hb a List.mem_cons_self)
    rw [List.takeWhile_append_of_pos hne, List.takeWhile_cons_of_neg (by simp), List.append_nil]
  exact (htake h).symm.trans (htake h')

namespace OneImport

variable (h : OneImport u m v)
include h

/-- What the replacements make of a use is what stands in its place. -/
theorem applyAliases_eq_of_bound (hused : usages (m.group 3) (u ++ m.text ++ v) = us)
    (hf : ∀ use ∈ us, Dotted (f use)) {imports : List (Text × List (Text × Text))}
    (he : (expand (u ++ m.text ++ v)).1 =
      write f (parts (m.group 3) u) ++ (blocks imports ++ write f (parts (m.group 3) v))) :
    ∀ use ∈ us, applyAliases us use = f use := by
  have hname := h.isIdentifier
  have hus := hused ▸ h.isUse
  have hmem : ∀ {use}, use ∈ us ↔
      .inr use ∈ parts (m.group 3) u ∨ .inr use ∈ parts (m.group 3) v := hused ▸ h.mem_uses
  have hdotted : ∀ use ∈ us, Dotted (applyAliases us use) := fun use huse =>
    ((hus use huse).dotted hname).turned (turned_applyAliases hname hus use)
  have hopen : ∀ use ∈ us, opensWord use = true := fun use huse => (hus use huse).opensWord hname
  rw [h.expand_eq hused, applyAliases_eq hname hus u, applyAliases_eq hname hus v] at he
  -- up to the import
  have hfront : ∀ ps use qs, parts (m.group 3) u = ps ++ .inr use :: qs →
      Ends (write id qs ++ (m.text ++ v)) := by
    intro ps use qs hcut
    have hcut' : parts (m.group 3) (u ++ m.text ++ v) =
        ps ++ .inr use :: (qs ++ (m.text.map .inl ++ parts (m.group 3) v)) := by
      rw [h.apart, hcut]
      simp only [List.append_assoc, List.cons_append]
    have hends := ends_of_parts_eq hname hcut'
    rwa [write_append, write_append, write_map_inl, write_id_parts hname] at hends
  have himport : opensWord (m.text ++ v) = true := by
    obtain ⟨r, hr⟩ := h.exists_text
    rw [hr]
    rfl
  obtain ⟨hrest, hu⟩ := write_injective (fun use huse => hopen use (hmem.2 (Or.inl huse))) hfront
    (fun use huse => hdotted use (hmem.2 (Or.inl huse)))
    (fun use huse => hf use (hmem.2 (Or.inl huse))) (Or.inl himport) (Or.inl himport) he
  -- behind the import statements
  have hcount : (write (applyAliases us) (parts (m.group 3) v)).count ';' =
      (write f (parts (m.group 3) v)).count ';' := count_write ';' fun use huse =>
    ⟨(hdotted use (hmem.2 (Or.inr huse))).not_mem (by decide) (by decide),
      (hf use (hmem.2 (Or.inr huse))).not_mem (by decide) (by decide)⟩
  have hback : ∀ ps use qs, parts (m.group 3) v = ps ++ .inr use :: qs →
      Ends (write id qs ++ []) := fun ps use qs hcut =>
    (List.append_nil (write id qs)).symm ▸ ends_of_parts_eq hname hcut
  obtain ⟨-, hv⟩ := write_injective (x := []) (y := [])
    (fun use huse => hopen use (hmem.2 (Or.inr huse))) hback
    (fun use huse => hdotted use (hmem.2 (Or.inr huse)))
    (fun use huse => hf use (hmem.2 (Or.inr huse))) (Or.inr rfl) (Or.inr rfl)
    (by rw [blocks_append_inj hcount hrest])
  exact fun use huse => (hmem.1 huse).elim (hu use) (hv use)

/-- Uses with aliases of their own are bound if none occurs in one that is replaced later. -/
theorem bound_expand
    (hnodup : ((usages (m.group 3) (u ++ m.text ++ v)).map aliasOf).Nodup)
    (hapart : (usages (m.group 3) (u ++ m.text ++ v)).Pairwise
      fun first later => later.containsWord first = false) :
    Bound (m.group 3) (m.group 2) u v (usages (m.group 3) (u ++ m.text ++ v))
      (expand (u ++ m.text ++ v)).1 := by
  have hname := h.isIdentifier
  have hus := h.isUse
  have hmem := @h.mem_uses
  have hexpand := h.expand_eq rfl
  generalize usages (m.group 3) (u ++ m.text ++ v) = us at hnodup hapart hus hmem hexpand ⊢
  have halias : ∀ use ∈ us, applyAliases us use = aliasOf use := by
    intro use huse
    obtain ⟨pre, post, rfl⟩ := List.append_of_mem huse
    exact applyAliases_use hname hus fun first hfirst =>
      (List.pairwise_append.1 hapart).2.2 first hfirst use List.mem_cons_self
  refine ⟨aliasOf, importsOf (m.group 2) us, binds_aliasOf hname _ hus hnodup, ?_⟩
  rw [hexpand, applyAliases_eq hname hus u, applyAliases_eq hname hus v,
    write_congr fun use huse => halias use (hmem.2 (Or.inl huse)),
    write_congr fun use huse => halias use (hmem.2 (Or.inr huse))]

/-- Uses are bound only if they have aliases of their own and none occurs in one that is replaced
later. -/
theorem of_bound_expand
    (hbound : Bound (m.group 3) (m.group 2) u v (usages (m.group 3) (u ++ m.text ++ v))
      (expand (u ++ m.text ++ v)).1) :
    ((usages (m.group 3) (u ++ m.text ++ v)).map aliasOf).Nodup ∧
      (usages (m.group 3) (u ++ m.text ++ v)).Pairwise
        fun first later => later.containsWord first = false := by
  obtain ⟨names, imports, hbinds, he⟩ := hbound
  have hname := h.isIdentifier
  have hus := h.isUse
  have hsame := h.applyAliases_eq_of_bound rfl
    (fun use huse => IsIdentifier.dotted (hbinds.isIdentifier use huse)) he
  have hdistinct : (usages (m.group 3) (u ++ m.text ++ v)).Nodup := Renaming.nodup_eraseDups _
  generalize usages (m.group 3) (u ++ m.text ++ v) = us at hbinds hus hsame hdistinct ⊢
  have hnames : ∀ use ∈ us, names use = aliasOf use := by
    intro use huse
    rw [← (turned_applyAliases hname hus use).aliasOf_eq, hsame use huse,
      aliasOf_of_forall_isWord (hbinds.isIdentifier use huse).2]
  have hinjective : ∀ use ∈ us, ∀ use' ∈ us, aliasOf use = aliasOf use' → use = use' := by
    intro use huse use' huse' halias
    rw [← hnames use huse, ← hnames use' huse'] at halias
    exact hbinds.injective use huse use' huse' halias
  refine ⟨hdistinct.map_on hinjective, pairwise_of_split fun pre use post hcut => ?_⟩
  have huse : use ∈ us := hcut ▸ List.mem_append_right pre List.mem_cons_self
  obtain ⟨ws, hne, -, heq⟩ := hus use huse
  obtain ⟨w, ws, rfl⟩ := List.exists_cons_of_ne_nil hne
  have hword : IsIdentifier (applyAliases us use) := hsame use huse ▸ hbinds.isIdentifier use huse
  have heq : use = m.group 3 ++ '.' :: (w ++ dotted ws) := heq
  rw [heq] at hword
  -- the use that stands in the whole place when its turn comes is the one that stood there first
  obtain ⟨pre', first, post', hcut', hfirst⟩ :=
    exists_of_isIdentifier_applyAliases hname hus (by decide) hword
  have hpre' : ∀ u ∈ pre', IsUse (m.group 3) u := fun u hu =>
    hus u (hcut' ▸ List.mem_append_left _ hu)
  rw [← heq] at hfirst
  have halias := (turned_applyAliases hname hpre' use).aliasOf_eq
  rw [hfirst] at halias
  obtain rfl := hinjective first (hcut' ▸ List.mem_append_right pre' List.mem_cons_self) use huse
    halias
  rw [eq_of_split hdistinct hcut hcut']
  exact not_containsWord_of_applyAliases_eq hname hpre' hfirst

end OneImport

/-- Expanding a namespace import binds each use to an import of its own, and leaves everything else
as it is, if and only if no two uses share an alias and none occurs in one that is used first only
later, and so is replaced later. -/
theorem bound_iff (h : OneImport u m v) (serial : Nat) (isShader : Bool) :
    (∃ result, ((plugin serial).preprocess isShader (u ++ m.text ++ v)).1 = .ok result ∧
      Bound (m.group 3) (m.group 2) u v (usages (m.group 3) (u ++ m.text ++ v)) result) ↔
    ((usages (m.group 3) (u ++ m.text ++ v)).map aliasOf).Nodup ∧
      (usages (m.group 3) (u ++ m.text ++ v)).Pairwise
        fun first later => later.containsWord first = false := by
  constructor
  · rintro ⟨_, hresult, hbound⟩
    cases hresult
    exact h.of_bound_expand hbound
  · rintro ⟨hnodup, hapart⟩
    exact ⟨_, rfl, h.bound_expand hnodup hapart⟩

theorem exists_oneImport (u s v path name : Text)
    (hfound : (statementForm.search (u ++ s ++ v)).map
      (fun m => (m.text, m.start, m.group 2, m.group 3)) = some (s, u.length, path, name))
    (hlast : statementForm.search v = none) (hused : usages name (u ++ s ++ v) ≠ [])
    (hpath : '.' ∉ path)
    (hparts : parts name (u ++ s ++ v) = parts name u ++ s.map .inl ++ parts name v) :
    ∃ m, OneImport u m v ∧ m.text = s ∧ m.group 2 = path ∧ m.group 3 = name := by
  obtain ⟨m, hm, heq⟩ := Option.map_eq_some_iff.1 hfound
  obtain ⟨rfl, hstart, rfl, rfl⟩ : m.text = s ∧ m.start = u.length ∧ m.group 2 = path ∧
      m.group 3 = name := by simpa using heq
  exact ⟨m, ⟨hm, hstart, hlast, fun hnil => absurd hnil hused, hpath, hparts⟩, rfl, rfl, rfl⟩

theorem bound_iff_colors : ∃ m,
    OneImport "float x = c.warm.RED;\n".toList m "\nfloat y = c.RED + c.warm.RED;".toList ∧
      ∃ result, ((plugin 0).preprocess true ("float x = c.warm.RED;\n".toList ++ m.text ++
          "\nfloat y = c.RED + c.warm.RED;".toList)).1 = .ok result ∧
        Bound "c".toList "colors".toList "float x = c.warm.RED;\n".toList
          "\nfloat y = c.RED + c.warm.RED;".toList ["c.warm.RED".toList, "c.RED".toList]
          result := by
  obtain ⟨m, h, htext, hpath, hname⟩ := exists_oneImport "float x = c.warm.RED;\n".toList
    "import colors as c;".toList "\nfloat y = c.RED + c.warm.RED;".toList
    "colors".toList "c".toList (by decide +kernel) (by decide +kernel)
    (by decide +kernel) (by decide) (by decide +kernel)
  have hused : usages (m.group 3) ("float x = c.warm.RED;\n".toList ++ m.text ++
      "\nfloat y = c.RED + c.warm.RED;".toList) = ["c.warm.RED".toList, "c.RED".toList] := by
    rw [htext, hname]
    decide +kernel
  have hbound := (bound_iff h 0 true).2 (by rw [hused]; decide +kernel)
  rw [hused, hname, hpath] at hbound
  exact ⟨m, h, hbound⟩

/-- After `n.a` is replaced, `n.a.b` is not there any more. -/
theorem not_bound_longer : ∃ m, OneImport [] m "\nfloat x = n.a + n.a.b;".toList ∧
    ¬ ∃ result, ((plugin 0).preprocess true (m.text ++
        "\nfloat x = n.a + n.a.b;".toList)).1 = .ok result ∧
      Bound "n".toList "lib".toList [] "\nfloat x = n.a + n.a.b;".toList
        ["n.a".toList, "n.a.b".toList] result := by
  obtain ⟨m, h, htext, hpath, hname⟩ := exists_oneImport []
    "import lib as n;".toList "\nfloat x = n.a + n.a.b;".toList "lib".toList "n".toList
    (by decide +kernel) (by decide +kernel) (by decide +kernel) (by decide) (by decide +kernel)
  have hused : usages (m.group 3) ([] ++ m.text ++ "\nfloat x = n.a + n.a.b;".toList) =
      ["n.a".toList, "n.a.b".toList] := by
    rw [htext, hname]
    decide +kernel
  refine ⟨m, h, ?_⟩
  rintro ⟨_, hresult, hbound⟩
  cases hresult
  rw [← hused, ← hname, ← hpath] at hbound
  have hapart := (h.of_bound_expand hbound).2
  rw [hused] at hapart
  exact absurd hapart (by decide +kernel)

end Namespaces

end ShaderLink
