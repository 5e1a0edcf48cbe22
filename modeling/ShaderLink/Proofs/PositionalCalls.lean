import ShaderLink.Proofs.NamedValues

/-!
# Calls become positional

A call with named arguments is rewritten twice.  Before the module is read its names are wrapped
(`preprocess_eq`); this is a call with named arguments again, in the same place.  When the callee is
known, the values are put in the order of its parameters (`positional_eq`), whatever the order of
the names was.  All else in the text stays as it is (`transform_preprocess`).
-/

namespace ShaderLink

open Text Pattern

namespace NamedArguments

/-! ## Calls as they are written -/

/-- A call with at least one named argument; there may be blanks wherever they do no harm, and a
comma behind the last argument. -/
structure NamedCall where
  callee : Text
  front : Text
  back : Text
  arguments : List NamedValue
  ending : Option Text
  space : Text
  isIdentifier : IsIdentifier callee
  isBlank_front : front.AllBlank
  isBlank_back : back.AllBlank
  arguments_ne_nil : arguments ≠ []
  isBlank_ending : ∀ b ∈ ending, AllBlank b
  isBlank_space : space.AllBlank

theorem NamedValue.brace_not_mem (x : NamedValue) : '\x7d' ∉ x.text := by
  have hname : '\x7d' ∉ x.name := fun hmem => absurd (x.isIdentifier.2 _ hmem) (by decide)
  have hblank : ∀ {b : Text}, b.AllBlank → '\x7d' ∉ b := fun hb =>
    Text.AllBlank.not_mem hb (by decide)
  simp [text, core, hname, hblank x.isBlank_before, hblank x.isBlank_mid, hblank x.isBlank_after,
    hblank x.isBlank_behind, x.isValue.brace_not_mem]

theorem brace_not_mem_listText {xs : List NamedValue} {ending : Option Text}
    (hending : ∀ b ∈ ending, AllBlank b) : '\x7d' ∉ listText xs ending := by
  have hall : ∀ c ∈ listText xs ending, c ≠ '\x7d' := by
    refine forall_mem_join (List.forall_mem_singleton.2 (by decide)) fun t ht c hc heq => ?_
    subst heq
    rcases List.mem_append.1 ht with ht | ht
    · obtain ⟨x, -, rfl⟩ := List.mem_map.1 ht
      exact x.brace_not_mem hc
    · exact Text.AllBlank.not_mem (hending t (Option.mem_toList.1 ht)) (by decide) hc
  exact fun hmem => hall _ hmem rfl

namespace NamedCall

def toCallText (x : NamedCall) : CallText where
  callee := x.callee
  front := x.front
  back := x.back
  inner := listText x.arguments x.ending
  space := x.space
  isIdentifier := x.isIdentifier
  isBlank_front := x.isBlank_front
  isBlank_back := x.isBlank_back
  brace_not_mem := brace_not_mem_listText x.isBlank_ending
  isBlank_space := x.isBlank_space

def text (x : NamedCall) : Text := x.toCallText.text

end NamedCall

/-! ## The names are wrapped -/

theorem allBlank_nil : AllBlank [] := List.forall_mem_nil _

theorem allBlank_space : AllBlank [' '] := List.forall_mem_singleton.2 isBlank_space

/-- An argument as it is written for a wrapped name. -/
def NamedValue.wrapped (x : NamedValue) : NamedValue where
  before := [' ']
  name := wrap x.name
  mid := []
  after := [' ']
  value := x.value
  behind := []
  isBlank_before := allBlank_space
  isIdentifier := isIdentifier_wrap x.isIdentifier
  isBlank_mid := allBlank_nil
  isBlank_after := allBlank_space
  isValue := x.isValue
  isBlank_behind := allBlank_nil

/-- The call that is written when the names are wrapped. -/
def NamedCall.wrapped (x : NamedCall) : NamedCall where
  callee := x.callee
  front := []
  back := []
  arguments := x.arguments.map NamedValue.wrapped
  ending := some [' ']
  space := []
  isIdentifier := x.isIdentifier
  isBlank_front := allBlank_nil
  isBlank_back := allBlank_nil
  arguments_ne_nil := by simpa using x.arguments_ne_nil
  isBlank_ending := by
    rintro _ ⟨⟩
    exact allBlank_space
  isBlank_space := allBlank_nil

theorem join_spaced {ts : List Text} (hne : ts ≠ []) :
    join [','] (ts.map (' ' :: ·) ++ [[' ']]) = ' ' :: (join ", ".toList ts ++ ", ".toList) := by
  induction ts with
  | nil => exact absurd rfl hne
  | cons t ts ih =>
    rw [List.map_cons, List.cons_append, join_cons, if_neg (by simp), join_cons_append]
    split
    · rename_i hnil
      rw [hnil]
      rfl
    · rename_i hmore
      rw [ih hmore]
      rfl

namespace NamedCall

variable {u v g e : Text} {m : Match} {x : NamedCall}

theorem text_wrapped (x : NamedCall) : x.wrapped.text = x.callee ++ "(\x7b ".toList ++
    join ", ".toList (x.arguments.map fun a => wrap a.name ++ ": ".toList ++ a.value) ++
      ", \x7d)".toList := by
  have hshown : (x.arguments.map NamedValue.wrapped).map NamedValue.text =
      (x.arguments.map fun a => wrap a.name ++ ": ".toList ++ a.value).map (' ' :: ·) := by
    rw [List.map_map, List.map_map]
    refine List.map_congr_left fun a _ => ?_
    simp [NamedValue.text, NamedValue.core, NamedValue.wrapped]
  have hinner : x.wrapped.toCallText.inner =
      ' ' :: (join ", ".toList (x.arguments.map fun a => wrap a.name ++ ": ".toList ++ a.value) ++
        ", ".toList) := by
    show join [','] ((x.arguments.map NamedValue.wrapped).map NamedValue.text ++ [[' ']]) = _
    rw [hshown, join_spaced (by simpa using x.arguments_ne_nil)]
  rw [text, CallText.text, CallText.rest, hinner]
  simp [toCallText, wrapped]

/-- If the only match begins at a call, then that call is the only one in the text. -/
theorem alone_of_findAll (h : callForm.findAll (u ++ (x.text ++ v)) = [m])
    (hstart : m.start = u.length) : Alone BeginsCall u x.text v := by
  obtain ⟨b, u', v', ht, hstart', hm, halone⟩ :=
    exists_alone_of_findAll isSome_here_callForm rfl h
  obtain ⟨rfl, htail⟩ := List.append_inj ht (hstart.symm.trans hstart')
  obtain ⟨y, -, -, r, hy, htext, -⟩ := exists_of_callForm hm
  obtain ⟨-, -, hxy, rfl⟩ := CallText.unique (htail.trans hy)
  rw [htext, ← hxy] at htail halone
  obtain rfl := List.append_cancel_left htail
  exact halone

/-- There is something between the braces. -/
theorem trim_inner_ne_nil (hg : g.AllBlank) (he : e.AllBlank)
    (hinner : x.toCallText.inner = g ++ m.group 2 ++ e) : (m.group 2).trim ≠ [] := by
  intro hnil
  have hparts := parts_listText x.arguments_ne_nil x.isBlank_ending
  rw [show listText x.arguments x.ending = _ from hinner, parts_append_blank he,
    parts_blank_append hg, ← parts_trim, hnil] at hparts
  exact x.arguments_ne_nil (List.map_eq_nil_iff.1 hparts.symm)

/-- A call with wrapped names is written in the place of a call. -/
theorem wrapCall_eq (hnodup : (x.arguments.map (·.name)).Nodup) (hcallee : m.group 1 = x.callee)
    (hg : g.AllBlank) (he : e.AllBlank) (hinner : x.toCallText.inner = g ++ m.group 2 ++ e) :
    wrapCall m = .ok x.wrapped.text := by
  have hwrapped : (x.arguments.map fun a => wrap a.name).Nodup := by
    have hmap := hnodup.map wrap_injective
    rwa [List.map_map] at hmap
  have hvalues := values_eq wrap x.arguments_ne_nil x.isBlank_ending hg he hinner hwrapped
  have hsome : ¬ (m.group 2).trim.isEmpty = true := by
    simpa using trim_inner_ne_nil hg he hinner
  unfold wrapCall
  rw [if_neg hsome, hvalues, hcallee, text_wrapped]
  show Except.ok _ = _
  rw [List.map_map]
  rfl

/-- The names of the only call in a text are wrapped, and all else is kept. -/
theorem preprocess_eq (h : Alone BeginsCall u x.text v)
    (hnodup : (x.arguments.map (·.name)).Nodup) :
    preprocess (u ++ (x.text ++ v)) = .ok (u ++ (x.wrapped.text ++ v)) := by
  obtain ⟨m, g, e, hpieces, -, hcallee, hg, he, hinner⟩ := x.toCallText.exists_pieces h
  exact substituteM_of_pieces hpieces (wrapCall_eq hnodup hcallee hg he hinner)

end NamedCall

/-! ## The values are put in order -/

section Positional

variable {s : Surroundings} {m : Match} {x : NamedCall} {ys : List NamedValue}
  {d : Declaration} {pre post : List Declaration} {g e : Text}

/-- The values of a call by name. -/
def NamedCall.table (x : NamedCall) : Table Text Text :=
  x.arguments.map fun a => (a.name, a.value)

theorem NamedCall.keys_table (x : NamedCall) : x.table.keys = x.arguments.map (·.name) :=
  List.map_map ..

theorem takes_iff {names : List Text} :
    takes (sorted names) d = true ↔ (d.parameters.map (·.name)).Perm names := by
  rw [takes, beq_iff_eq, sorted_eq_iff]

/-- The first declaration with the parameters is the one that is found. -/
theorem find?_takes {names : List Text}
    (hfirst : ∀ c ∈ pre, ¬ (c.parameters.map (·.name)).Perm names)
    (hd : (d.parameters.map (·.name)).Perm names) :
    (pre ++ d :: post).find? (takes (sorted names)) = some d := by
  have hpre : pre.find? (takes (sorted names)) = none :=
    List.find?_eq_none.2 fun c hc htakes => hfirst c hc (takes_iff.1 htakes)
  rw [List.find?_append, hpre, List.find?_cons_of_pos (takes_iff.2 hd)]
  rfl

/-- Each parameter is given the value that is written for its name. -/
theorem map_get?_eq {ps : List Parameter} (hperm : x.arguments.Perm ys)
    (hnames : ys.map (·.name) = ps.map (·.name)) (hnodup : (ps.map (·.name)).Nodup) :
    ps.map (fun p => (x.table.get? p.name).getD []) = ys.map (·.value) := by
  have htable : x.table.keys.Nodup := by
    rw [x.keys_table, (hperm.map _).nodup_iff, hnames]
    exact hnodup
  have hvalue : ∀ y ∈ ys, (x.table.get? y.name).getD [] = y.value := by
    intro y hy
    have hmem : (y.name, y.value) ∈ x.table := List.mem_map.2 ⟨y, hperm.mem_iff.2 hy, rfl⟩
    rw [(Table.get?_eq_some_iff htable).2 hmem]
    rfl
  calc ps.map (fun p => (x.table.get? p.name).getD [])
      = (ps.map (·.name)).map (fun n => (x.table.get? n).getD []) := by rw [List.map_map]; rfl
    _ = ys.map (fun y => (x.table.get? y.name).getD []) := by rw [← hnames, List.map_map]; rfl
    _ = ys.map (·.value) := List.map_congr_left hvalue

/-- Unwrapped, the names are what they were. -/
theorem values_unwrap_eq (hg : g.AllBlank) (he : e.AllBlank)
    (hinner : x.wrapped.toCallText.inner = g ++ m.group 2 ++ e)
    (hnodup : (x.arguments.map (·.name)).Nodup) : values unwrap (m.group 2) = .ok x.table := by
  have hname : ∀ a : NamedValue, unwrap a.wrapped.name = a.name := fun a =>
    unwrap_wrap a.isIdentifier.1
  have hnames : (x.wrapped.arguments.map fun a => unwrap a.name) = x.arguments.map (·.name) := by
    show (x.arguments.map NamedValue.wrapped).map _ = _
    rw [List.map_map]
    exact List.map_congr_left fun a _ => hname a
  have hpairs : (x.wrapped.arguments.map fun a => (unwrap a.name, a.value)) = x.table := by
    show (x.arguments.map NamedValue.wrapped).map _ = _
    rw [List.map_map]
    exact List.map_congr_left fun a _ => congrArg (·, a.value) (hname a)
  rw [← hpairs]
  exact values_eq unwrap x.wrapped.arguments_ne_nil x.wrapped.isBlank_ending hg he hinner
    (hnames ▸ hnodup)

/-- The call that is written in the place of one with wrapped names. -/
theorem positional_eq (hcallee : m.group 1 = x.callee) (hg : g.AllBlank) (he : e.AllBlank)
    (hinner : x.wrapped.toCallText.inner = g ++ m.group 2 ++ e)
    (hfound : callables s x.callee = pre ++ d :: post)
    (hfirst : ∀ c ∈ pre, ¬ (c.parameters.map (·.name)).Perm (d.parameters.map (·.name)))
    (hnodup : (d.parameters.map (·.name)).Nodup) (hperm : x.arguments.Perm ys)
    (hnames : ys.map (·.name) = d.parameters.map (·.name)) :
    positional s m =
      .ok (x.callee ++ '(' :: join ", ".toList (ys.map (·.value)) ++ [')']) := by
  have hsame : (d.parameters.map (·.name)).Perm x.table.keys := by
    rw [x.keys_table, ← hnames]
    exact (hperm.map _).symm
  have hvalues : values unwrap (m.group 2) = .ok x.table := by
    refine values_unwrap_eq hg he hinner ?_
    rw [← x.keys_table]
    exact hsame.nodup_iff.1 hnodup
  have hfind : (pre ++ d :: post).find? (takes (sorted x.table.keys)) = some d :=
    find?_takes (fun c hc hperm => hfirst c hc (hperm.trans hsame.symm)) hsame
  obtain ⟨c, cs, hcons⟩ := List.exists_cons_of_ne_nil (by simp : pre ++ d :: post ≠ [])
  rw [hcons] at hfound hfind
  rw [← map_get?_eq hperm hnames hnodup]
  unfold positional
  simp only [hcallee, hfound, hvalues, bind, Except.bind]
  rw [hfind]
  rfl

/-- A call with named arguments becomes the positional call, whatever the order of the names is:
the callee is the first declaration in sight with parameters of these names, and each parameter
takes the value written for its name.  All else in the text is kept. -/
theorem transform_preprocess (serial : Nat) (isShader isShader' : Bool) {u v : Text}
    (hm : callForm.findAll (u ++ (x.text ++ v)) = [m]) (hstart : m.start = u.length)
    (hfound : callables s x.callee = pre ++ d :: post)
    (hfirst : ∀ c ∈ pre, ¬ (c.parameters.map (·.name)).Perm (d.parameters.map (·.name)))
    (hnodup : (d.parameters.map (·.name)).Nodup) (hperm : x.arguments.Perm ys)
    (hnames : ys.map (·.name) = d.parameters.map (·.name)) :
    ∃ text, (plugin serial).preprocess isShader (u ++ (x.text ++ v)) = (.ok text, []) ∧
      ∀ c : Declaration, c.definition = text → (plugin serial).transform isShader' s [c] =
        { edited := [{ c with definition :=
            u ++ ((x.callee ++ '(' :: join ", ".toList (ys.map (·.value)) ++ [')']) ++ v) }]
          replacement := .ok none } := by
  have halone := NamedCall.alone_of_findAll hm hstart
  have hnodup' : (x.arguments.map (·.name)).Nodup := by
    rw [(hperm.map _).nodup_iff, hnames]
    exact hnodup
  refine ⟨_, congrArg (·, []) (NamedCall.preprocess_eq halone hnodup'), ?_⟩
  intro c hc
  have hwrapped : Alone BeginsCall u x.wrapped.toCallText.text v := alone_exchange halone rfl
  obtain ⟨m', g, e, hpieces, -, hcallee, hg, he, hinner⟩ :=
    x.wrapped.toCallText.exists_pieces hwrapped
  have hpositional := positional_eq (x := x) hcallee hg he hinner hfound hfirst hnodup hperm hnames
  have hdefinition : callForm.substituteM (positional s) c.definition = .ok (u ++
      ((x.callee ++ '(' :: join ", ".toList (ys.map (·.value)) ++ [')']) ++ v)) := by
    rw [hc]
    exact substituteM_of_pieces hpieces hpositional
  show Transformed.mk (makePositional s [c]).1 (makePositional s [c]).2 = _
  simp only [makePositional, hdefinition]

/-- The second of two overloads is called, with its arguments the other way around. -/
theorem transform_preprocess_overload :
    ∃ text, (plugin 0).preprocess false
        "c = light (\x7b at: f(1, 2),color : on ? r : b, \x7d);".toList = (.ok text, []) ∧
      (plugin 0).transform false (Surroundings.of "m".toList
          [.ofSource .function "light".toList "m".toList 0 [] [⟨"x".toList, "vec3".toList, 0⟩],
            .ofSource .function "light".toList "m".toList 1 []
              [⟨"color".toList, "vec3".toList, 0⟩, ⟨"at".toList, "vec3".toList, 1⟩]] [] [])
          [⟨.global, "c".toList, "m".toList, 2, text, [], [], 0⟩] =
        { edited := [⟨.global, "c".toList, "m".toList, 2, "c = light(on ? r : b, f(1, 2));".toList,
            [], [], 0⟩]
          replacement := .ok none } := by
  let place : NamedValue := ⟨[' '], "at".toList, [], [' '], "f(1, 2)".toList, [],
    allBlank_space, by decide, allBlank_nil, allBlank_space, by decide, allBlank_nil⟩
  let color : NamedValue := ⟨[], "color".toList, [' '], [' '], "on ? r : b".toList, [],
    allBlank_nil, by decide, allBlank_space, allBlank_space, by decide, allBlank_nil⟩
  let x : NamedCall := ⟨"light".toList, [' '], [], [place, color], some [' '], [], by decide,
    allBlank_space, allBlank_nil, List.cons_ne_nil _ _,
    fun _ hb => Option.some.inj hb ▸ allBlank_space, allBlank_nil⟩
  have hm : callForm.findAll ("c = ".toList ++ (x.text ++ ";".toList)) =
      [⟨4, x.text, [some "light".toList, some "at: f(1, 2),color : on ? r : b,".toList]⟩] := by
    decide +kernel
  let one : Declaration :=
    .ofSource .function "light".toList "m".toList 0 [] [⟨"x".toList, "vec3".toList, 0⟩]
  let two : Declaration := .ofSource .function "light".toList "m".toList 1 []
    [⟨"color".toList, "vec3".toList, 0⟩, ⟨"at".toList, "vec3".toList, 1⟩]
  have hfound : callables (Surroundings.of "m".toList [one, two] [] []) x.callee =
      [one] ++ two :: [] := by decide +kernel
  have hperm : x.arguments.Perm [color, place] := List.Perm.swap _ _ _
  obtain ⟨text, hpreprocess, htransform⟩ := transform_preprocess 0 false false hm rfl hfound
    (by decide +kernel) (by decide +kernel) hperm rfl
  exact ⟨text, hpreprocess, htransform _ rfl⟩

end Positional

end NamedArguments

end ShaderLink
