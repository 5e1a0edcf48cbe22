import ShaderLink.Proofs.Findings
import ShaderLink.Proofs.Passes

/-!
# Passes over a module of declarations

Each pass takes out the declarations of its kind as a whole, with name and text, and leaves blanks
in their place (`Pass.ofKind_eq`).  Imports and exports are not found (`Pass.imports_eq`,
`Pass.exports_eq`).
-/

namespace ShaderLink

open Text Pattern

variable {i : Item} {es as bs pre post : List Slot} {m : Match} {ms : List Match} {path : Text}
  {kind : Kind}

/-- What there is to say of a declaration: its kind, its name and its text. -/
def Declaration.gist (d : Declaration) : Kind × Text × Text := (d.kind, d.name, d.definition)

/-- What there is to say of a declaration: its kind, its name and its text. -/
def Item.gist (i : Item) : Kind × Text × Text := (i.kind, i.name, i.text)

/-! ## Declarations of a kind -/

/-- The declarations of a kind are taken out. -/
def Slot.without (kind : Kind) (e : Slot) : Slot := (e.1, e.2 && e.1.kind != kind)

/-- The declarations of a kind that are there. -/
def thoseOf (kind : Kind) (es : List Slot) : List Item :=
  (es.filter fun e => e.2 && e.1.kind == kind).map Prod.fst

theorem Lacks.map_without (h : Lacks (some kind) es) : es.map (Slot.without kind) = es := by
  refine (List.map_congr_left fun e he => ?_).trans (List.map_id es)
  obtain ⟨i, shown⟩ := e
  cases shown with
  | true => simpa [Slot.without] using h _ he rfl
  | false => rfl

theorem Lacks.thoseOf_eq (h : Lacks (some kind) es) : thoseOf kind es = [] := by
  rw [thoseOf, List.map_eq_nil_iff, List.filter_eq_nil_iff]
  intro e he
  simpa using h e he

theorem map_without_split (hpre : Lacks (some kind) pre) (hi : i.kind = kind) (post : List Slot) :
    (pre ++ (i, true) :: post).map (Slot.without kind) =
      pre ++ (i, false) :: post.map (Slot.without kind) := by
  rw [List.map_append, hpre.map_without, List.map_cons]
  simp [Slot.without, hi]

theorem thoseOf_split (hpre : Lacks (some kind) pre) (hi : i.kind = kind) (post : List Slot) :
    thoseOf kind (pre ++ (i, true) :: post) = i :: thoseOf kind post := by
  have happend : thoseOf kind (pre ++ (i, true) :: post) =
      thoseOf kind pre ++ thoseOf kind ((i, true) :: post) := by
    simp [thoseOf]
  rw [happend, hpre.thoseOf_eq]
  simp [thoseOf, hi]

theorem thoseOf_hidden (hpre : Lacks (some kind) pre) (i : Item) (post : List Slot) :
    thoseOf kind (pre ++ (i, false) :: post) = thoseOf kind post := by
  have happend : thoseOf kind (pre ++ (i, false) :: post) =
      thoseOf kind pre ++ thoseOf kind ((i, false) :: post) := by
    simp [thoseOf]
  rw [happend, hpre.thoseOf_eq]
  simp [thoseOf]

theorem map_without_hidden (hpre : Lacks (some kind) pre) (hi : i.kind = kind) (post : List Slot) :
    (pre ++ (i, false) :: post).map (Slot.without kind) =
      (pre ++ (i, true) :: post).map (Slot.without kind) := by
  rw [map_without_split hpre hi, List.map_append, hpre.map_without]
  rfl

theorem Left.hide {hidden : List Kind} (h : Left hidden (pre ++ (i, true) :: post)) :
    Left hidden (pre ++ (i, false) :: post) := by
  obtain ⟨hpre, hrest⟩ := List.forall_mem_append.1 h
  obtain ⟨hi, hpost⟩ := List.forall_mem_cons.1 hrest
  exact List.forall_mem_append.2 ⟨hpre, List.forall_mem_cons.2 ⟨⟨hi.1, by simp⟩, hpost⟩⟩

/-! ## Taking one out -/

theorem drop_take_sourceOf (as : List Slot) (i : Item) (bs : List Slot) :
    ((sourceOf (as ++ (i, true) :: bs)).take ((preceding as).length + i.text.length)).drop
      (preceding as).length = i.text := by
  rw [sourceOf_append_cons, shown_true, ← List.append_assoc, ← List.length_append, List.take_left,
    List.drop_left]

theorem blankOut_sourceOf (as : List Slot) (i : Item) (bs : List Slot) :
    (sourceOf (as ++ (i, true) :: bs)).blankOut ↑(preceding as).length
      ↑((preceding as).length + i.text.length) = sourceOf (as ++ (i, false) :: bs) := by
  rw [blankOut_natCast, sourceOf_append_cons, sourceOf_append_cons, shown_true, shown_false,
    List.take_left, ← List.drop_drop, List.drop_left, List.drop_left, Nat.add_sub_cancel_left,
    List.append_assoc]

/-- The step takes a declaration out as a whole, and finds out what there is to say of it. -/
def TakesOutWhole (kind : Kind) (step : Match → Pass Declaration) : Prop :=
  ∀ {i : Item} {m : Match} {as : List Slot} (bs : List Slot), i.kind = kind → i.ReadBy m →
    m.start = (preceding as).length →
    ∃ d, step m (sourceOf (as ++ (i, true) :: bs)) = (.ok d, sourceOf (as ++ (i, false) :: bs)) ∧
      d.gist = i.gist

theorem Finding.mapM_eq {step : Match → Pass Declaration} (hstep : TakesOutWhole kind step)
    (h : Finding (some kind) as es ms) :
    ∃ ds, ms.mapM step (sourceOf (as ++ es)) =
        (.ok ds, sourceOf (as ++ es.map (Slot.without kind))) ∧
      ds.map Declaration.gist = (thoseOf kind es).map Item.gist := by
  induction h with
  | none h => exact ⟨[], by rw [h.map_without]; rfl, by rw [h.thoseOf_eq]; rfl⟩
  | @next as pre post i m ms hpre hi hstart hread h ih =>
    obtain rfl := Option.some.inj hi
    obtain ⟨d, hd, hgist⟩ := hstep post rfl hread hstart
    obtain ⟨ds, hds, hgists⟩ := ih
    refine ⟨d :: ds, ?_, ?_⟩
    · rw [← List.append_assoc, List.mapM_cons, bind_apply, hd]
      show (ms.mapM step >>= fun ds => pure (d :: ds))
        (sourceOf (as ++ pre ++ (i, false) :: post)) = _
      rw [List.append_cons, bind_apply, hds, map_without_split hpre rfl]
      simp
      rfl
    · rw [thoseOf_split hpre rfl, List.map_cons, List.map_cons, hgist, hgists]

/-! ## The passes -/

/-- Taking all matches out and then reading them is the same as taking out one after the other. -/
theorem forM_map_eq_mapM {α β : Type} (f : α → Pass PUnit) (g : α → β) (l : List α) :
    (l.forM f >>= fun _ => pure (l.map g)) = l.mapM fun a => f a >>= fun _ => pure (g a) := by
  induction l with
  | nil => rfl
  | cons a l ih =>
    rw [List.mapM_cons, ← ih]
    simp [List.forM]

theorem gist_ofSource {name t : Text} {ps : List Parameter} {start : Int} (hkind : i.kind = kind)
    (hname : name = i.name) (ht : t = i.text) :
    (Declaration.ofSource kind name path start t ps).gist = i.gist := by
  subst hkind hname ht
  exact congrArg (fun t => (i.kind, i.name, t)) i.trim_text

theorem blankOut_of_eq {start stop : Nat} (hstart : start = (preceding as).length)
    (hstop : stop = start + i.text.length) :
    (sourceOf (as ++ (i, true) :: bs)).blankOut start stop = sourceOf (as ++ (i, false) :: bs) := by
  rw [hstop, hstart, blankOut_sourceOf]

theorem takesOutWhole_matched (hkind : kind = .global ∨ kind = .uniform) (path : Text) :
    TakesOutWhole kind fun m => Pass.clear m.start m.stop >>= fun _ =>
      pure (.ofSource kind (m.group 3) path m.start m.text) := by
  intro i m as bs hi hread hstart
  have hparts : m.text = i.text ∧ m.group 3 = i.name := by
    rcases hkind with rfl | rfl
    · cases i with
      | global x => exact hread
      | function x | uniform x | struct x | define x => cases hi
    · cases i with
      | uniform x => exact hread
      | function x | global x | struct x | define x => cases hi
  refine ⟨_, congrArg (Prod.mk _) (blankOut_of_eq hstart ?_), gist_ofSource hi hparts.2 hparts.1⟩
  rw [Match.stop, hparts.1]

/-- Between the braces of a struct there is something to read. -/
theorem takesOutWhole_structs (path : Text) : TakesOutWhole .struct fun m =>
    ofExcept ((Parameter.ofFields (m.group 3)).mapError (Fault.within path)) >>= fun fields =>
      Pass.clear (m.stop - (m.group 1).length) m.stop >>= fun _ =>
        pure (.ofSource .struct (m.group 2) path ↑(m.stop - (m.group 1).length) (m.group 1)
          fields) := by
  intro i m as bs hi hread hstart
  cases i with
  | struct x =>
    obtain ⟨htext, hone, htwo, hthree⟩ := hread
    obtain ⟨fields, hfields⟩ := x.exists_fields
    have hbegin : m.stop - (m.group 1).length = m.start := by
      rw [Match.stop, htext, hone, Nat.add_sub_cancel]
    simp only
    rw [hthree, hfields, hbegin]
    refine ⟨_, congrArg (Prod.mk _) (blankOut_of_eq hstart ?_), gist_ofSource hi htwo hone⟩
    rw [Match.stop, htext]
    rfl
  | function x | global x | uniform x | define x => cases hi

theorem takesOutWhole_defines (path : Text) : TakesOutWhole .define fun m =>
    Pass.clear (m.stop - (m.group 1).length) m.stop >>= fun _ =>
      pure (.ofSource .define (m.group 2) path ↑(m.stop - (m.group 1).length) (m.group 1)) := by
  intro i m as bs hi hread hstart
  cases i with
  | define x =>
    obtain ⟨htext, hone, htwo⟩ := hread
    have hbegin : m.stop - (m.group 1).length = m.start := by
      rw [Match.stop, htext, hone, Nat.add_sub_cancel]
    simp only
    rw [hbegin]
    refine ⟨_, congrArg (Prod.mk _) (blankOut_of_eq hstart ?_), gist_ofSource hi htwo hone⟩
    rw [Match.stop, htext]
    rfl
  | function x | global x | uniform x | struct x => cases hi

theorem functionExtent_eq (path : Text) {x : FunctionText} {ps : List Parameter}
    (bs : List Slot)
    (hread : (Item.function x).ReadBy m) (hstart : m.start = (preceding as).length)
    (hps : Parameter.ofList x.inside = .ok ps) :
    Pass.functionExtent path (sourceOf (as ++ (.function x, true) :: bs)) m =
      .ok (m.start + x.text.length, ps) := by
  have hclosing : closingIndex '{' '}' (sourceOf (as ++ (.function x, true) :: bs)) ↑m.start =
      .ok (m.start + x.text.length) := by
    rw [sourceOf_append_cons, shown_true, hstart]
    exact x.closingIndex_eq (preceding as) (following bs)
  unfold Pass.functionExtent
  rw [hclosing, hread.2, hps]
  rfl

theorem functionsFrom_of_none {code : Text} (fuel : Nat)
    (h : Form.functionHead.search code = none) :
    Pass.functionsFrom path (fuel + 1) code = (.ok [], code) := by
  unfold Pass.functionsFrom
  rw [bind_apply, show (get : Pass Text) code = (.ok code, code) from rfl]
  simp only [h]
  rfl

theorem functionsFrom_of_some {code left : Text} {fuel stop : Nat} {ps : List Parameter}
    {ds : List Declaration} (h : Form.functionHead.search code = some m)
    (hextent : Pass.functionExtent path code m = .ok (stop, ps))
    (hothers : Pass.functionsFrom path fuel (code.blankOut m.start stop) = (.ok ds, left)) :
    Pass.functionsFrom path (fuel + 1) code =
      (.ok (.ofSource .function (m.group 3) path m.start ((code.take stop).drop m.start) ps :: ds),
        left) := by
  unfold Pass.functionsFrom
  rw [bind_apply, show (get : Pass Text) code = (.ok code, code) from rfl]
  simp only [h, hextent]
  show (Pass.functionsFrom path fuel >>= _) (code.blankOut m.start stop) = _
  rw [bind_apply, hothers]
  rfl

/-- The functions are taken out one by one. -/
theorem functionsFrom_eq (path : Text) {fuel : Nat} (hes : Left [] es)
    (hfuel : (thoseOf .function es).length < fuel) :
    ∃ ds, Pass.functionsFrom path fuel (sourceOf es) =
        (.ok ds, sourceOf (es.map (Slot.without .function))) ∧
      ds.map Declaration.gist = (thoseOf .function es).map Item.gist := by
  induction fuel generalizing es with
  | zero => exact absurd hfuel (Nat.not_lt_zero _)
  | succ fuel ih =>
    rcases (Kind.picksOut .function).search_cases (g := []) hes (Or.inl rfl) with
      ⟨hsearch, hlacks⟩ | ⟨pre, i, post, m, rfl, hpre, hi, hsearch, hstart, hread⟩
    · refine ⟨[], ?_, by rw [hlacks.thoseOf_eq]; rfl⟩
      rw [hlacks.map_without]
      exact functionsFrom_of_none fuel hsearch
    have hi : i.kind = .function := Option.some.inj hi
    have hstart : m.start = (preceding pre).length := by simpa using hstart
    rw [thoseOf_split hpre hi] at hfuel ⊢
    obtain ⟨ds, hds, hgists⟩ := ih hes.hide
      (by rw [thoseOf_hidden hpre]; simpa using hfuel)
    rw [thoseOf_hidden hpre] at hgists
    cases i with
    | function x =>
      obtain ⟨ps, hps⟩ := x.exists_parameters
      have hextent := functionExtent_eq path post hread hstart hps
      rw [← blankOut_of_eq hstart rfl, map_without_hidden hpre rfl] at hds
      have hdefinition : ((sourceOf (pre ++ (Item.function x, true) :: post)).take
          (m.start + x.text.length)).drop m.start = x.text := by
        rw [hstart]
        exact drop_take_sourceOf pre (.function x) post
      refine ⟨_, functionsFrom_of_some hsearch hextent hds, ?_⟩
      rw [List.map_cons, List.map_cons, hgists]
      exact congrArg (· :: _) (gist_ofSource rfl hread.1 hdefinition)
    | global x | uniform x | struct x | define x => cases hi

theorem length_thoseOf_le (kind : Kind) (es : List Slot) :
    (thoseOf kind es).length ≤ (sourceOf es).length := by
  have hfollowing : es.length ≤ (sourceOf es).length := by
    induction es with
    | nil => exact le_rfl
    | cons e es ih =>
      have hpos : 0 < e.shown.length := by
        rw [length_shown]
        exact List.length_pos_iff.2 e.1.text_ne_nil
      obtain ⟨g, -, hg⟩ := following_eq es
      rw [sourceOf_cons, hg]
      simp only [List.length_append, List.length_cons]
      omega
  rw [thoseOf, List.length_map]
  exact (List.length_filter_le _ es).trans hfollowing

theorem matched_eq_mapM {form : Pattern} (kind : Kind) (path code : Text) :
    Pass.matched kind form path code = (form.sequence code).mapM (fun m =>
      Pass.clear m.start m.stop >>= fun _ =>
        pure (Declaration.ofSource kind (m.group 3) path m.start m.text)) code := by
  rw [← forM_map_eq_mapM]
  rfl

/-- The pass for a kind takes out the declarations of the kind, each as a whole. -/
theorem Pass.ofKind_eq (path : Text) (kind : Kind) (hes : Left kind.earlier es) :
    ∃ ds, Pass.ofKind kind path (sourceOf es) = (.ok ds, sourceOf (es.map (Slot.without kind))) ∧
      ds.map Declaration.gist = (thoseOf kind es).map Item.gist := by
  have hfinding : kind ≠ .function →
      Finding (some kind) [] es (kind.searchForm.sequence (sourceOf es)) := fun hkind =>
    kind.picksOut.finding_sequence (fun h => hkind (Option.some.inj h)) hes
  cases kind with
  | function =>
    exact functionsFrom_eq path hes (Nat.lt_succ_of_le (length_thoseOf_le _ es))
  | global =>
    obtain ⟨ds, hds, hgists⟩ := (hfinding nofun).mapM_eq (takesOutWhole_matched (Or.inl rfl) path)
    exact ⟨ds, (matched_eq_mapM _ path _).trans hds, hgists⟩
  | uniform =>
    obtain ⟨ds, hds, hgists⟩ := (hfinding nofun).mapM_eq (takesOutWhole_matched (Or.inr rfl) path)
    exact ⟨ds, (matched_eq_mapM _ path _).trans hds, hgists⟩
  | struct => exact (hfinding nofun).mapM_eq (takesOutWhole_structs path)
  | define => exact (hfinding nofun).mapM_eq (takesOutWhole_defines path)

theorem PicksOut.sequence_eq_nil {form : Pattern} (h : PicksOut form [] none) (hes : Left [] es) :
    form.sequence (sourceOf es) = [] := by
  have hfinding := h.finding_sequence nofun hes
  generalize form.sequence (sourceOf es) = ms at hfinding ⊢
  cases hfinding with
  | none h => rfl
  | next hpre hi => cases hi

/-- There are no imports and no exports. -/
theorem Pass.imports_eq (hpath : firstSegment path ≠ []) (hes : Left [] es) :
    Pass.imports path (sourceOf es) = (.ok [], sourceOf es) := by
  have hlibrary : libraryOf path = .ok (firstSegment path) := libraryOf_eq_ok_iff.2 ⟨rfl, hpath⟩
  have hget : (get : Pass Text) (sourceOf es) = (.ok (sourceOf es), sourceOf es) := rfl
  have hfirst : (ofExcept (libraryOf path) : Pass Text) (sourceOf es) =
      (.ok (firstSegment path), sourceOf es) := by
    rw [hlibrary]
    rfl
  unfold Pass.imports
  rw [bind_apply, hfirst]
  simp only
  rw [bind_apply, hget]
  simp only [picksOut_imports.sequence_eq_nil hes]
  rfl

theorem Pass.exports_eq (path : Text) (hes : Left [] es) :
    Pass.exports path (sourceOf es) = (.ok [], sourceOf es) := by
  have hget : (get : Pass Text) (sourceOf es) = (.ok (sourceOf es), sourceOf es) := rfl
  unfold Pass.exports
  rw [bind_apply, hget]
  simp only [picksOut_exports.sequence_eq_nil hes]
  rfl

end ShaderLink
