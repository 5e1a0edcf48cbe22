import ShaderLink.Proofs.Accounts

/-!
# The passes account for everything

Each pass over a module keeps the accounts of `Accounts`: the matches that it takes out stand one
behind the other in a code that it does not change otherwise (`Remains`), and each declaration has
what its match, or the part of it behind the indentation, takes.  Together the passes account for
the whole source, if no export gives a new name (`accounts_of_ofCode`).
-/

namespace ShaderLink

open Pattern Cursor

variable {source code : Text} {statements : List Match} {ds : List Declaration}
  {path : Text}

/-! ## Where declarations begin -/

/-- The pattern takes only texts that begin with a character that is not blank. -/
def Pattern.IsSolid (p : Pattern) : Prop :=
  ∀ u, p.Accepts u → ∃ c v, u = c :: v ∧ Text.isBlank c = false

namespace Pattern.IsSolid

variable {p q : Pattern}

theorem append (h : p.IsSolid) (q : Pattern) : (p ++ q).IsSolid := by
  rintro _ ⟨u, w, hu, -, rfl⟩
  obtain ⟨c, v, rfl, hc⟩ := h u hu
  exact ⟨c, v ++ w, rfl, hc⟩

theorem group (h : p.IsSolid) (n : Nat) : (Pattern.group n p).IsSolid := h

end Pattern.IsSolid

theorem isSolid_phrase {s : String} {c : Char} {t : Text} (hs : s.toList = c :: t)
    (hc : Text.isBlank c = false) : (phrase s).IsSolid := by
  intro u hu
  exact ⟨c, t, (accepts_phrase.1 hu).trans hs, hc⟩

theorem isSolid_identifier : identifier.IsSolid := by
  intro u hu
  obtain ⟨hne, hword⟩ := accepts_many1_one.1 hu
  obtain ⟨c, v, rfl⟩ := List.exists_cons_of_ne_nil hne
  exact ⟨c, v, rfl, isBlank_of_isSized (isSized_of_isWord (hword c List.mem_cons_self))⟩

namespace Form

/-- A struct without the blanks in front. -/
def structCore : Pattern :=
  phrase "struct" ++ gap ++ group 2 identifier ++ blanks ++ lit '{' ++
    group 3 (many1 (noneOf "\x7d")) ++ lit '}' ++ blanks ++ lit ';'

/-- A macro without the blanks in front. -/
def defineCore : Pattern :=
  phrase "#define" ++ many1 (oneOf " \t") ++ group 2 identifier ++
    optional (group 3 (lit '(' ++ many (noneOf ")") ++ lit ')')) ++ many1 (oneOf " \t") ++
    group 4 (many (noneOf "\n"))

end Form

theorem isSolid_functionHead : Form.functionHead.IsSolid :=
  isSolid_identifier.group 2 |>.append _ |>.append _ |>.append _ |>.append _ |>.append _
    |>.append _ |>.group 1 |>.append _ |>.append _

theorem isSolid_structCore : Form.structCore.IsSolid :=
  isSolid_phrase rfl rfl |>.append _ |>.append _ |>.append _ |>.append _ |>.append _
    |>.append _ |>.append _ |>.append _

theorem isSolid_defineCore : Form.defineCore.IsSolid :=
  isSolid_phrase rfl rfl |>.append _ |>.append _ |>.append _ |>.append _ |>.append _

/-- The text ends the match, and does not begin with a blank. -/
structure Match.HasCore (m : Match) (w : Text) : Prop where
  isSuffix : w <:+ m.text
  head : ∀ c ∈ w.head?, Text.isBlank c = false

theorem Match.HasCore.shift {m : Match} {w : Text} (h : m.HasCore w) (n : Nat) :
    (m.shift n).HasCore w := ⟨h.isSuffix, h.head⟩

/-- Behind the indentation of a line stands a part that is remembered as the first. -/
theorem exists_of_run_indented {q : Pattern} (hq : q.isPlain = true) (hsolid : q.IsSolid)
    {done : Cursor → Option Cursor} (hdone : ∀ k k', done k = some k' → k' = k) {k k' : Cursor}
    (hk : k.Counts) (h : (Form.indent ++ group 1 q).run k done = some k') :
    ∃ w, k'.group? 1 = some w ∧ w <:+ (k.upTo k').text ∧ ∀ c ∈ w.head?, Text.isBlank c = false := by
  have hindent : (if k.atLineStart then (chars _).run k fun k₁ => q.run k₁ fun k₂ =>
      done (k₂.remember 1 (k₁.upTo k₂)) else none) = some k' := h
  split at hindent
  case isFalse => cases hindent
  case isTrue =>
    obtain ⟨u, t, -, ht, hrun⟩ := exists_of_run rfl rfl hindent
    rw [run_eq_findSome?] at hrun
    obtain ⟨k₂, hk₂, hrun⟩ := List.exists_of_findSome?_eq_some hrun
    obtain ⟨w, r, gs, hw, hr, rfl, -⟩ := exists_of_mem_outcomes hq hk₂
    obtain rfl := hdone _ _ hrun
    have hgroup : ((k.after u).upTo (((k.after u).after w).withGroups gs)).text = w :=
      text_upTo_after (hk.after u) hr
    have htext : (k.upTo (((k.after u).after w).withGroups gs)).text = u ++ w := by
      rw [after_after]
      refine text_upTo_after hk (t := r) ?_
      rw [rest_after_of_eq ht] at hr
      rw [ht, hr, List.append_assoc]
    obtain ⟨c, v, rfl, hc⟩ := hsolid w hw
    refine ⟨c :: v, congrArg some hgroup, ?_, ?_⟩
    · exact ⟨u, htext.symm⟩
    · intro d hd
      cases hd
      exact hc

/-- What is found of an indented form has the part behind the indentation as its core. -/
theorem hasCore_indented {p : Pattern} (q : Pattern) (done : Cursor → Option Cursor) {m : Match}
    (hp : ∀ k, p.run k some = (Form.indent ++ group 1 q).run k done) (hcount : 0 < p.groupCount)
    (hq : q.isPlain = true) (hsolid : q.IsSolid) (hdone : ∀ k k', done k = some k' → k' = k)
    (h : m ∈ p.sequence code) : m.HasCore (m.group 1) := by
  obtain ⟨b, start, t, m, offset, hhere, rfl⟩ := exists_here_of_sequence h
  obtain ⟨k', hrun, -, htext, hgroup⟩ := exists_run_of_here hhere
  have hk : Cursor.Counts ⟨b, t, t.length, []⟩ := rfl
  obtain ⟨w, hw, hsuffix, hhead⟩ := exists_of_run_indented hq hsolid hdone hk (hp _ ▸ hrun)
  have hone : m.group 1 = w := by
    rw [hgroup 0, hw, if_pos hcount]
    rfl
  have hcore : m.HasCore w := ⟨htext ▸ hsuffix, hhead⟩
  exact hone.symm ▸ hcore.shift offset

theorem hasCore_struct {m : Match} (h : m ∈ Form.structForm.sequence code) :
    m.HasCore (m.group 1) :=
  hasCore_indented Form.structCore some (fun _ => rfl) (by decide) rfl isSolid_structCore
    (fun _ _ h => (Option.some.inj h).symm) h

theorem hasCore_define {m : Match} (h : m ∈ Form.defineForm.sequence code) :
    m.HasCore (m.group 1) := by
  refine hasCore_indented Form.defineCore (fun k => lineEnd.run k some) (fun _ => rfl) (by decide)
    rfl isSolid_defineCore (fun k k' h => ?_) h
  have hend : (if k.atLineEnd then some k else none) = some k' := h
  split at hend
  · exact (Option.some.inj hend).symm
  · cases hend

/-- Uniforms and global variables are their own core. -/
theorem hasCore_matched {kind : Kind} {form : Pattern} (hkind : kind.form? = some form) {m : Match}
    (h : m ∈ form.sequence code) : m.HasCore m.text := by
  obtain ⟨x, hx, -⟩ := exists_layout_of_sequence hkind h
  exact ⟨List.suffix_rfl, hx.text ▸ x.isBlank_head_text⟩

/-! ## Declarations as they are read -/

/-- Dropping blanks at the end loses nothing else, if the text does not begin with one. -/
theorem exists_trim_append {w : Text} (h : ∀ c ∈ w.head?, Text.isBlank c = false) :
    ∃ v, w = w.trim ++ v ∧ ∀ c ∈ v, Text.isBlank c = true := by
  have hdrop : w.dropWhile Text.isBlank = w := by
    cases w with
    | nil => rfl
    | cons c w => exact List.dropWhile_cons_of_neg (by simp [h c rfl])
  refine ⟨(w.reverse.takeWhile Text.isBlank).reverse, ?_, fun c hc => ?_⟩
  · unfold Text.trim
    rw [hdrop, ← List.reverse_append, List.takeWhile_append_dropWhile, List.reverse_reverse]
  · exact List.mem_takeWhile_imp (List.mem_reverse.1 hc)

/-- A declaration takes out the text it was read from, if that does not begin with a blank. -/
theorem takesOut_ofSource (kind : Kind) (name path : Text) (ps : List Parameter) {start : Nat}
    {w : Text} (hw : ∀ (i : Nat) c, w[i]? = some c → code[start + i]? = some c)
    (hstop : start + w.length ≤ code.length) (hhead : ∀ c ∈ w.head?, Text.isBlank c = false) :
    (Declaration.ofSource kind name path start w ps).TakesOut code start (start + w.length) := by
  obtain ⟨v, hv, hblank⟩ := exists_trim_append hhead
  have hlen : w.length = w.trim.length + v.length :=
    (congrArg List.length hv).trans List.length_append
  have hget : ∀ i : Nat, w[i]? = (w.trim ++ v)[i]? := fun i => congrArg (fun u : Text => u[i]?) hv
  refine ⟨Nat.le_add_right _ _, hstop, rfl, fun i c hc => ?_, fun i c hi hc hnot => ?_⟩
  · have hi : i < w.trim.length := (List.getElem?_eq_some_iff.1 hc).1
    refine ⟨by omega, hw i c ?_⟩
    rw [hget, List.getElem?_append_left hi]
    exact hc
  · have hwi : w[i]? = some c := by
      cases hd : w[i]? with
      | none =>
        have := List.getElem?_eq_none_iff.1 hd
        omega
      | some d => exact (hw i d hd).symm.trans hc
    rw [hget] at hwi
    show w.trim[i]? = some c
    by_cases hi : i < w.trim.length
    · rwa [List.getElem?_append_left hi] at hwi
    · rw [List.getElem?_append_right (Nat.le_of_not_lt hi)] at hwi
      rw [hblank c (List.mem_of_getElem? hwi)] at hnot
      cases hnot

/-! ## What is left to take out -/

/-- The matches that are left lie in what has not been changed of the code. -/
def Remains (base : Text) (ms : List Match) (code : Text) : Prop :=
  code.length = base.length ∧ ∃ n, Placed base n ms ∧ ∀ i : Nat, n ≤ i → code[i]? = base[i]?

theorem remains_sequence {p : Pattern} (hp : p.consumes = true) (code : Text) :
    Remains code (p.sequence code) code :=
  ⟨rfl, 0, placed_sequence hp code, fun _ _ => rfl⟩

variable {base : Text} {m : Match} {ms : List Match} {w : Text}

theorem Match.HasCore.length_le (h : m.HasCore w) : w.length ≤ m.text.length :=
  h.isSuffix.length_le

theorem Match.HasCore.getElem?_of_text (h : m.HasCore w) (hm : m.LiesIn base) {i : Nat} {c : Char}
    (hc : w[i]? = some c) : base[m.stop - w.length + i]? = some c := by
  obtain ⟨u, hu⟩ := h.isSuffix
  have hlen : u.length + w.length = m.text.length := by
    rw [← hu, List.length_append]
  have htext : m.text[u.length + i]? = some c := by
    rw [← hu, List.getElem?_append_right (Nat.le_add_right _ _), Nat.add_sub_cancel_left]
    exact hc
  have hstart : m.stop - w.length + i = m.start + (u.length + i) := by
    unfold Match.stop
    omega
  rw [hstart]
  exact hm.getElem?_of_text htext

/-- The next match: its core is taken out as a declaration, and the others are left. -/
theorem Remains.takeOut (h : Remains base (m :: ms) code) (hcore : m.HasCore w) (kind : Kind)
    (name path : Text) (ps : List Parameter) :
    (Declaration.ofSource kind name path ↑(m.stop - w.length) w ps).TakesOut code
      (m.stop - w.length) m.stop ∧
    Remains base ms (code.blankOut ↑(m.stop - w.length) m.stop) := by
  obtain ⟨hlength, n, ⟨hn, hm, hms⟩, hsame⟩ := h
  have hle := hcore.length_le
  have hstop := hm.stop_le
  have hsum : m.stop - w.length + w.length = m.stop := by
    unfold Match.stop
    omega
  have hstart : n ≤ m.stop - w.length := by
    unfold Match.stop
    omega
  have hd : (Declaration.ofSource kind name path ↑(m.stop - w.length) w ps).TakesOut code
      (m.stop - w.length) (m.stop - w.length + w.length) := by
    refine takesOut_ofSource kind name path ps (fun i c hc => ?_) (by omega) hcore.head
    rw [hsame _ (by omega)]
    exact hcore.getElem?_of_text hm hc
  rw [hsum] at hd
  refine ⟨hd, (Text.length_blankOut hd.le hd.stop_le).trans hlength, m.stop, hms, fun i hi => ?_⟩
  rw [Text.getElem?_blankOut_outside (Or.inr hi) hd.le hd.stop_le]
  exact hsame i (by omega)

/-! ## Passes over declarations -/

/-- The pass keeps to the accounts: what it takes out of the code are its declarations. -/
def Pass.Balanced (pass : Pass (List Declaration)) : Prop :=
  ∀ {source statements code ds}, Accounts source statements code ds →
    Ends (fun found code => Accounts source statements code (ds ++ found)) (fun _ => True)
      (pass code)

theorem closingLength_bounds {o c : Char} {depth n : Nat} {t : Text}
    (h : Text.closingLength o c depth t = some n) : 1 ≤ n ∧ n ≤ t.length := by
  have hstep : ∀ {depth n} {t : Text}, (∀ {depth n}, Text.closingLength o c depth t = some n →
      1 ≤ n ∧ n ≤ t.length) → (Text.closingLength o c depth t).map (· + 1) = some n →
      1 ≤ n ∧ n ≤ t.length + 1 := by
    intro depth n t ih h
    obtain ⟨m, hm, rfl⟩ := Option.map_eq_some_iff.1 h
    have := ih hm
    omega
  induction t generalizing depth n with
  | nil => cases h
  | cons d t ih =>
    rw [List.length_cons]
    unfold Text.closingLength at h
    split at h
    · exact hstep ih h
    · split at h
      · split at h
        · cases h
          exact ⟨le_rfl, Nat.le_add_left _ _⟩
        · exact hstep ih h
      · exact hstep ih h

theorem closingIndex_bounds {o c : Char} {start stop : Nat}
    (h : code.closingIndex o c start = .ok stop) : start ≤ stop ∧ stop ≤ code.length := by
  unfold Text.closingIndex at h
  rw [Text.offset_natCast] at h
  simp only at h
  split at h
  · cases h
  · split at h
    · cases h
    · rename_i n hn
      cases h
      have hbounds := closingLength_bounds hn
      rw [List.length_drop] at hbounds
      omega

theorem closingIndex_of_functionExtent {m : Match} {stop : Nat} {ps : List Parameter}
    (h : Pass.functionExtent path code m = .ok (stop, ps)) :
    code.closingIndex '{' '}' m.start = .ok stop := by
  unfold Pass.functionExtent at h
  cases hstop : code.closingIndex '{' '}' m.start with
  | error e =>
    rw [hstop] at h
    cases h
  | ok n =>
    cases hps : Parameter.ofList (m.group 4) with
    | error e =>
      rw [hstop, hps] at h
      cases h
    | ok qs =>
      rw [hstop, hps] at h
      cases h
      rfl

theorem functionExtent_bounds {m : Match} {stop : Nat} {ps : List Parameter}
    (h : Pass.functionExtent path code m = .ok (stop, ps)) :
    m.start ≤ stop ∧ stop ≤ code.length :=
  closingIndex_bounds (closingIndex_of_functionExtent h)

theorem accepts_of_search {p : Pattern} {m : Match} (hp : p.isPlain = true)
    (h : p.search code = some m) : p.Accepts m.text := by
  obtain ⟨b, start, t, hhere⟩ := exists_here_of_search h
  obtain ⟨k', hrun, -, htext, -⟩ := exists_run_of_here hhere
  rw [run_some_eq_head?] at hrun
  obtain ⟨u, r, gs, hu, hr, rfl, -⟩ := exists_of_mem_outcomes hp (List.mem_of_mem_head? hrun)
  have hk : Cursor.Counts ⟨b, t, t.length, []⟩ := rfl
  rwa [htext, text_upTo_after hk hr]

/-- A function begins with the first character of its head. -/
theorem takesOut_function {m : Match} {stop : Nat} (hm : Form.functionHead.search code = some m)
    (hle : m.start ≤ stop) (hstop : stop ≤ code.length) (name path : Text)
    (ps : List Parameter) :
    (Declaration.ofSource .function name path m.start ((code.take stop).drop m.start) ps).TakesOut
      code m.start stop := by
  have hlen : ((code.take stop).drop m.start).length = stop - m.start := by
    rw [List.length_drop, List.length_take_of_le hstop]
  have hsum : m.start + ((code.take stop).drop m.start).length = stop := by omega
  have hget : ∀ (i : Nat) c, ((code.take stop).drop m.start)[i]? = some c →
      code[m.start + i]? = some c := by
    intro i c hc
    rw [List.getElem?_drop, List.getElem?_take] at hc
    split at hc
    · exact hc
    · cases hc
  have htakes := takesOut_ofSource .function name path ps hget (hsum.symm ▸ hstop) ?_
  · rwa [hsum] at htakes
  · intro c hc
    rw [List.head?_eq_getElem?] at hc
    obtain ⟨d, v, hd, hblank⟩ := isSolid_functionHead m.text (accepts_of_search rfl hm)
    have hfirst : code[m.start + 0]? = some d :=
      (liesIn_of_search hm).getElem?_of_text (by rw [hd]; rfl)
    obtain rfl := Option.some.inj ((hget 0 c hc).symm.trans hfirst)
    exact hblank

theorem balanced_functionsFrom (fuel : Nat) : (Pass.functionsFrom path fuel).Balanced := by
  induction fuel with
  | zero =>
    intro source statements code ds h
    show Accounts source statements code (ds ++ [])
    rwa [List.append_nil]
  | succ fuel ih =>
    intro source statements code ds h
    unfold Pass.functionsFrom
    apply ends_bind.2
    apply ends_get.2
    cases hm : Form.functionHead.search code with
    | none =>
      show Accounts source statements code (ds ++ [])
      rwa [List.append_nil]
    | some m =>
      apply ends_bind.2
      apply ends_ofExcept.2
      refine ⟨fun extent hextent => ?_, fun _ _ => trivial⟩
      obtain ⟨stop, parameters⟩ := extent
      obtain ⟨hle, hstop⟩ := functionExtent_bounds hextent
      apply ends_bind.2
      apply ends_modify.2
      refine (ih (h.takeOut (takesOut_function hm hle hstop (m.group 3) path
        parameters))).bind fun others s hothers => ?_
      rw [List.append_assoc] at hothers
      exact hothers

theorem balanced_functions : (Pass.functions path).Balanced := by
  intro source statements code ds h
  unfold Pass.functions
  apply ends_bind.2
  exact balanced_functionsFrom _ h

theorem balanced_matched {kind : Kind} {form : Pattern} (hkind : kind.form? = some form)
    (hform : form.consumes = true) : (Pass.matched kind form path).Balanced := by
  intro source statements code ds h
  let read : Match → Declaration := fun m => .ofSource kind (m.group 3) path m.start m.text
  unfold Pass.matched
  apply ends_bind.2
  apply ends_get.2
  let I : List Match → Text → Prop := fun rest s => ∃ taken, form.sequence code = taken ++ rest ∧
    Accounts source statements s (ds ++ taken.map read) ∧ Remains code rest s
  refine Ends.bind (Q := fun _ => I []) (ends_forM_rest (fun m rest s hs => ?_)
    ⟨[], rfl, (List.append_nil ds).symm ▸ h, remains_sequence hform code⟩) fun _ s hs => ?_
  · obtain ⟨taken, hsplit, haccounts, hremains⟩ := hs
    have hcore : m.HasCore m.text :=
      hasCore_matched hkind (hsplit ▸ List.mem_append_right _ List.mem_cons_self)
    have hstart : m.stop - m.text.length = m.start := Nat.add_sub_cancel ..
    obtain ⟨hd, hrest⟩ := hremains.takeOut hcore kind (m.group 3) path []
    rw [hstart] at hd hrest
    refine ⟨taken ++ [m], by simp [hsplit], ?_, hrest⟩
    rw [List.map_append, ← List.append_assoc]
    exact haccounts.takeOut hd
  · obtain ⟨taken, hsplit, haccounts, -⟩ := hs
    rw [List.append_nil] at hsplit
    rw [← hsplit] at haccounts
    exact haccounts

/-- A pass that reads the core of each match as a declaration. -/
theorem ends_mapM_cores {form : Pattern} {read : Match → Pass Declaration} (core : Match → Text)
    (hform : form.consumes = true) (hcore : ∀ m ∈ form.sequence code, m.HasCore (core m))
    (hread : ∀ m ∈ form.sequence code, ∀ (s : Text) (Q : Declaration → Text → Prop),
      (∀ kind name path ps, Q (.ofSource kind name path ↑(m.stop - (core m).length) (core m) ps)
        (s.blankOut ↑(m.stop - (core m).length) m.stop)) →
      Ends Q (fun _ => True) (read m s))
    (h : Accounts source statements code ds) :
    Ends (fun found s => Accounts source statements s (ds ++ found)) (fun _ => True)
      ((form.sequence code).mapM read code) := by
  let I : List Match → List Declaration → Text → Prop := fun rest found s =>
    rest ⊆ form.sequence code ∧ Accounts source statements s (ds ++ found) ∧ Remains code rest s
  refine (ends_mapM_rest (I := I) (fun m rest found s hs => ?_)
    ⟨List.Subset.refl _, (List.append_nil ds).symm ▸ h, remains_sequence hform code⟩).imp
    fun _ _ hs => hs.2.1
  obtain ⟨hsub, haccounts, hremains⟩ := hs
  have hm : m ∈ form.sequence code := hsub List.mem_cons_self
  refine hread m hm s _ fun kind name path ps => ?_
  obtain ⟨hd, hrest⟩ := hremains.takeOut (hcore m hm) kind name path ps
  refine ⟨fun _ hx => hsub (List.mem_cons_of_mem _ hx), ?_, hrest⟩
  rw [← List.append_assoc]
  exact haccounts.takeOut hd

theorem balanced_structs : (Pass.structs path).Balanced := by
  intro source statements code ds h
  unfold Pass.structs
  apply ends_bind.2
  apply ends_get.2
  refine ends_mapM_cores (fun m => m.group 1) rfl (fun m hm => hasCore_struct hm)
    (fun m _ s Q hQ => ?_) h
  apply ends_bind.2
  apply ends_ofExcept.2
  refine ⟨fun fields _ => ?_, fun _ _ => trivial⟩
  exact hQ .struct (m.group 2) path fields

theorem balanced_defines : (Pass.defines path).Balanced := by
  intro source statements code ds h
  unfold Pass.defines
  apply ends_bind.2
  apply ends_get.2
  refine ends_mapM_cores (fun m => m.group 1) rfl (fun m hm => hasCore_define hm)
    (fun m _ s Q hQ => ?_) h
  exact hQ .define (m.group 2) path []

/-! ## Passes over statements -/

/-- Some of the matches were taken out as statements, and these are left. -/
def Clearing (source : Text) (before found rest : List Match) (code : Text) : Prop :=
  ∃ taken, found = taken ++ rest ∧ Accounts source (before ++ taken) code []

theorem Clearing.next {before found rest : List Match} {m : Match}
    (h : Clearing source before found (m :: rest) code)
    (hfound : ∀ m ∈ found, m.LiesIn base) (hbase : base.length = source.length) :
    Clearing source before found rest (code.blankOut m.start m.stop) := by
  obtain ⟨taken, hsplit, haccounts⟩ := h
  have hm : m ∈ found := hsplit ▸ List.mem_append_right _ List.mem_cons_self
  have hstop := (hfound m hm).stop_le
  refine ⟨taken ++ [m], by simp [hsplit], ?_⟩
  rw [← List.append_assoc]
  exact haccounts.clear (by rw [haccounts.length_eq, ← hbase]; exact hstop)

theorem Clearing.done {before found : List Match} (h : Clearing source before found [] code) :
    Accounts source (before ++ found) code [] := by
  obtain ⟨taken, hsplit, haccounts⟩ := h
  rw [List.append_nil] at hsplit
  rwa [hsplit]

theorem accounts_imports (path code : Text) :
    Ends (fun _ s => Accounts code (Statement.importForm.sequence code) s []) (fun _ => True)
      (Pass.imports path code) := by
  unfold Pass.imports
  apply ends_bind.2
  apply ends_ofExcept.2
  refine ⟨fun library _ => ?_, fun _ _ => trivial⟩
  apply ends_bind.2
  apply ends_get.2
  have hlies := (placed_sequence (p := Statement.importForm) rfl code).liesIn
  refine Ends.bind (Q := fun _ => Clearing code [] (Statement.importForm.sequence code) [])
    (ends_mapM_rest (I := fun rest _ =>
      Clearing code [] (Statement.importForm.sequence code) rest) (fun m rest _ s hs => ?_)
      ⟨[], rfl, accounts_source code⟩) fun _ s hs => hs.done
  apply ends_bind.2
  apply ends_ofExcept.2
  exact ⟨fun _ _ => hs.next hlies rfl, fun _ _ => trivial⟩

/-- An entry without an alias leaves the code as it is. -/
theorem ends_exportEntry {entry : Text}
    (h : ∀ k ∈ Statement.exportEntry.search entry, k.group? 3 = none) (s : Text) :
    Ends (fun _ s' => s' = s) (fun _ => True) (Pass.exportEntry path entry s) := by
  unfold Pass.exportEntry
  cases hk : Statement.exportEntry.search entry with
  | none => trivial
  | some k =>
    apply ends_bind.2
    apply ends_ofExcept.2
    refine ⟨fun _ _ => ?_, fun _ _ => trivial⟩
    rw [h k hk]
    rfl

theorem accounts_exports
    (halias : ∀ m ∈ Statement.exportForm.sequence code, ∀ entry ∈ Statement.entries (m.group 1),
      ∀ k ∈ Statement.exportEntry.search entry, k.group? 3 = none)
    (h : Accounts source statements code []) :
    Ends (fun _ s => Accounts source (statements ++ Statement.exportForm.sequence code) s [])
      (fun _ => True) (Pass.exports path code) := by
  unfold Pass.exports
  apply ends_bind.2
  apply ends_get.2
  have hlies := (placed_sequence (p := Statement.exportForm) rfl code).liesIn
  refine Ends.bind (Q := fun _ => Clearing source statements
    (Statement.exportForm.sequence code) []) (ends_forM_rest (I := fun rest =>
      Clearing source statements (Statement.exportForm.sequence code) rest)
      (fun m rest s hs => hs.next hlies h.length_eq)
      ⟨[], rfl, (List.append_nil statements).symm ▸ h⟩) fun _ s hs => ?_
  refine Ends.bind (Q := fun _ s' => s' = s) ?_ fun _ s' hs' => hs' ▸ hs.done
  refine (ends_mapM (P := fun _ => True) (I := fun s' => s' = s) (fun m hm s' hs' => ?_) rfl).imp
    fun _ _ h => h.2
  refine (ends_mapM (P := fun _ => True) (I := fun s' => s' = s) (fun entry hentry s'' hs'' => ?_)
    hs').imp fun _ _ h => ⟨trivial, h.2⟩
  exact (ends_exportEntry (halias m hm entry hentry) s'').imp
    fun _ _ h => ⟨trivial, h.trans hs''⟩

/-! ## Outlines -/

theorem ends_onCode_iff {α : Type} {Q : α → Reading → Prop} {E : Reading → Prop}
    {pass : Text → Pass α} {s : Reading} : Ends Q E (Reader.onCode pass s) ↔
      Ends (fun a code => Q a { s with code }) (fun code => E { s with code })
        (pass s.path s.code) := by
  unfold Reader.onCode
  rcases pass s.path s.code with ⟨e | a, code⟩ <;> exact Iff.rfl

theorem ends_declarations {pass : Text → Pass (List Declaration)}
    (hpass : ∀ path, (pass path).Balanced) {s : Reading}
    (h : Accounts source statements s.code s.declarations) :
    Ends (fun _ s' => Accounts source statements s'.code s'.declarations) (fun _ => True)
      (Reader.declarations pass s) := by
  unfold Reader.declarations
  apply ends_bind.2
  apply ends_onCode_iff.2
  exact (hpass s.path h).imp fun ds code hds => hds

theorem Ends.and_snd {α σ : Type} {Q : α → σ → Prop} {E : σ → Prop} {r : Except Fault α × σ}
    (h : Ends Q E r) : Ends (fun a s => Q a s ∧ s = r.2) E r := by
  rcases r with ⟨e | a, s⟩
  · exact h
  · exact ⟨h, rfl⟩

/-- The imports come first, and leave the code in which the exports are looked for. -/
theorem accounts_readImports {s : Reading} (hpath : s.path = path) (hcode : s.code = source)
    (hds : s.declarations = []) :
    Ends (fun _ s' => s'.declarations = [] ∧ s'.code = (Pass.imports path source).2 ∧
        Accounts source (Statement.importForm.sequence source) s'.code [])
      (fun _ => True) (Reader.imports s) := by
  subst hpath hcode
  unfold Reader.imports
  apply ends_bind.2
  apply ends_onCode_iff.2
  exact (accounts_imports s.path s.code).and_snd.imp fun _ _ h => ⟨hds, h.2, h.1⟩

theorem accounts_readExports {s : Reading}
    (halias : ∀ m ∈ Statement.exportForm.sequence s.code, ∀ entry ∈ Statement.entries (m.group 1),
      ∀ k ∈ Statement.exportEntry.search entry, k.group? 3 = none)
    (hds : s.declarations = []) (h : Accounts source statements s.code []) :
    Ends (fun _ s' => Accounts source (statements ++ Statement.exportForm.sequence s.code) s'.code
        s'.declarations)
      (fun _ => True) (Reader.exports s) := by
  unfold Reader.exports
  apply ends_bind.2
  apply ends_onCode_iff.2
  refine (accounts_exports halias h).imp fun _ _ h => ?_
  show Accounts source _ _ s.declarations
  rwa [hds]

theorem accounts_everything (halias : WithoutAliases path source) :
    Ends (fun _ s => Accounts source (consumed path source) s.code s.declarations)
      (fun _ => True) (Reader.everything { toOutline := Outline.unread path source }) := by
  unfold Reader.everything
  refine (accounts_readImports rfl rfl rfl).bind fun _ s hs => ?_
  obtain ⟨hds, hcode, hs⟩ := hs
  have hexports := accounts_readExports (hcode ▸ halias) hds hs
  rw [hcode] at hexports
  refine hexports.bind fun _ s hs => ?_
  refine (ends_declarations (fun _ => balanced_functions) hs).bind fun _ s hs => ?_
  refine (ends_declarations (fun _ => balanced_matched rfl rfl) hs).bind fun _ s hs => ?_
  refine (ends_declarations (fun _ => balanced_matched rfl rfl) hs).bind fun _ s hs => ?_
  refine (ends_declarations (fun _ => balanced_structs) hs).bind fun _ s hs => ?_
  refine (ends_declarations (fun _ => balanced_defines) hs).bind fun _ s hs => ?_
  exact hs

/-- For every module without export aliases: what its outline says accounts for the whole source. -/
theorem accounts_of_ofCode {path code : Text} {o : Outline} (halias : WithoutAliases path code)
    (h : Outline.ofCode path code = .ok o) :
    Accounts code (consumed path code) o.code o.declarations := by
  have hends := accounts_everything halias
  unfold Outline.ofCode Outline.step at h
  revert hends h
  rcases Reader.everything { toOutline := Outline.unread path code } with ⟨e | a, s⟩
  · exact fun h => nomatch h
  · intro h hs
    cases h
    exact hs

/-- A module with an import inside of what looks like an export, a macro and a function. -/
def sampleCode : Text :=
  "export { f, import { g } from b/n; };\n#define K 2 \nfloat f() { return g(K); }\n".toList

theorem accounts_of_ofCode_sample :
    WithoutAliases "a/m".toList sampleCode ∧ ∃ o, Outline.ofCode "a/m".toList sampleCode = .ok o ∧
      o.declarations.map (·.index) = [51, 38] ∧
      Accounts sampleCode (consumed "a/m".toList sampleCode) o.code o.declarations := by
  have halias : WithoutAliases "a/m".toList sampleCode := by decide +kernel
  have hread : (Outline.ofCode "a/m".toList sampleCode).map
      (fun o => o.declarations.map (·.index)) = .ok [51, 38] := by decide +kernel
  cases ho : Outline.ofCode "a/m".toList sampleCode with
  | error e =>
    rw [ho] at hread
    cases hread
  | ok o =>
    rw [ho] at hread
    exact ⟨halias, o, rfl, Except.ok.inj hread, accounts_of_ofCode halias ho⟩

end ShaderLink
