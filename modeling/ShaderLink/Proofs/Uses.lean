import Mathlib.Data.List.Basic
import ShaderLink.Plugin.Namespaces
import ShaderLink.Proofs.Captures
import ShaderLink.Proofs.Segments

/-!
# Uses of a namespace

A use of a namespace is its name with words behind it, each after a dot (`IsUse`), and goes on as
far as such words follow.  So the form of uses takes whole runs (`takesRuns_usageForm`), and a
search for it cuts a text into uses and the characters between them (`parts`).
-/

namespace ShaderLink.Namespaces

open Text Pattern Cursor

variable {name t u w : Text} {ws : List Text} {rs vs : List Run} {k : Cursor}

/-! ## Words behind dots -/

/-- The words that follow next, each after a dot. -/
def dotWords : List Run → List Text
  | .other c :: .word w :: rs => if c = '.' then w :: dotWords rs else []
  | _ => []

/-- Words, each after a dot. -/
def dotted (ws : List Text) : Text := ws.flatMap ('.' :: ·)

/-- The runs of words, each after a dot. -/
def dottedRuns (ws : List Text) : List Run := ws.flatMap fun w => [.other '.', .word w]

@[simp] theorem dotted_nil : dotted [] = [] := rfl

@[simp] theorem dotted_cons (w : Text) (ws : List Text) :
    dotted (w :: ws) = '.' :: w ++ dotted ws := rfl

@[simp] theorem dottedRuns_nil : dottedRuns [] = [] := rfl

@[simp] theorem dottedRuns_cons (w : Text) (ws : List Text) :
    dottedRuns (w :: ws) = .other '.' :: .word w :: dottedRuns ws := rfl

theorem flatten_dottedRuns (ws : List Text) : flatten (dottedRuns ws) = dotted ws := by
  induction ws with
  | nil => rfl
  | cons w ws ih => simp [ih, Run.text]

theorem length_dottedRuns (ws : List Text) : (dottedRuns ws).length = 2 * ws.length := by
  induction ws with
  | nil => rfl
  | cons w ws ih =>
    simp only [dottedRuns_cons, List.length_cons, ih]
    omega

theorem opensWord_dotted (ws : List Text) : opensWord (dotted ws) = false := by
  cases ws <;> rfl

theorem opensWord_dotted_append (ws : List Text) (ht : opensWord t = false) :
    opensWord (dotted ws ++ t) = false := by
  cases ws with
  | nil => exact ht
  | cons w ws => rfl

theorem dotWords_cons_eq_nil_of_ne {c : Char} (hc : c ≠ '.') (rs : List Run) :
    dotWords (.other c :: rs) = [] := by
  cases rs with
  | nil => rfl
  | cons r rs =>
    cases r with
    | other d => rfl
    | word w => exact if_neg hc

theorem dotWords_word (w : Text) (rs : List Run) : dotWords (.word w :: rs) = [] := rfl

/-- All words after dots are taken. -/
theorem exists_eq_dottedRuns (rs : List Run) :
    ∃ vs, rs = dottedRuns (dotWords rs) ++ vs ∧ dotWords vs = [] := by
  induction rs using dotWords.induct with
  | case1 w rs ih =>
    obtain ⟨vs, hvs, hnil⟩ := ih
    refine ⟨vs, ?_, hnil⟩
    rw [dotWords, if_pos rfl, dottedRuns_cons, List.cons_append, List.cons_append, ← hvs]
  | case2 c w rs hc =>
    have hnil := dotWords_cons_eq_nil_of_ne hc (.word w :: rs)
    exact ⟨_, by rw [hnil, dottedRuns_nil, List.nil_append], hnil⟩
  | case3 rs h =>
    have hnil : dotWords rs = [] := by
      rw [dotWords]
      exact h
    exact ⟨rs, by simp [hnil], hnil⟩

/-- A word after a dot follows next in a text if it is among its runs. -/
theorem exists_of_dotWords_eq_cons (h : dotWords (runs t) = w :: ws) :
    ∃ r, t = '.' :: w ++ r ∧ IsIdentifier w ∧ opensWord r = false ∧ dotWords (runs r) = ws := by
  obtain ⟨vs, hvs, -⟩ := exists_eq_dottedRuns (runs t)
  have hproper := proper_runs t
  rw [h, dottedRuns_cons, List.cons_append, List.cons_append] at hvs
  rw [hvs] at hproper
  refine ⟨flatten (dottedRuns ws ++ vs), ?_, hproper.2.1, hproper.2.2.1, ?_⟩
  · rw [← flatten_runs t, hvs]
    simp [Run.text]
  · rw [hvs, dotWords, if_pos rfl, List.cons.injEq] at h
    rw [runs_flatten hproper.2.2.2]
    exact h.2

/-! ## What the form of a use takes -/

/-- A dot and a word. -/
def dotWord : Pattern := lit '.' ++ identifier

theorem outcomes_dotWord_of_nil (h : dotWords (runs k.rest) = []) : dotWord.outcomes k = [] := by
  refine List.eq_nil_iff_forall_not_mem.2 fun k' hk' => ?_
  obtain ⟨u, t, gs, ⟨_, v, hdot, hv, rfl⟩, hrest, -, -⟩ := exists_of_mem_outcomes rfl hk'
  obtain rfl := accepts_lit.1 hdot
  have hopen : opensWord (v ++ t) = true := IsIdentifier.opensWord (accepts_many1_one.1 hv) t
  -- the word that begins with what was taken
  rw [hrest, List.append_assoc, List.singleton_append, runs_other (by decide)] at h
  obtain ⟨r, rs, hr⟩ := exists_runs_of_ne_nil (ne_nil_of_opensWord hopen)
  cases r with
  | other c =>
    have hproper := proper_runs (v ++ t)
    rw [← flatten_runs (v ++ t), hr] at hopen
    rw [hr] at hproper
    simp [Run.text, hproper.1] at hopen
  | word w => simp [hr, dotWords] at h

theorem head?_outcomes_dotWord (hw : IsIdentifier w) (ht : opensWord t = false)
    (hk : k.rest = '.' :: w ++ t) :
    (dotWord.outcomes k).head? = some (k.after ('.' :: w)) := by
  obtain ⟨c, w, rfl⟩ := List.exists_cons_of_ne_nil hw.1
  have hrun : dotWord.run k some = (chars isWord).run (k.after ['.', c]) some := by
    have hrest : (k.after ['.']).rest = c :: (w ++ t) := rest_after_of_eq hk
    show (lit '.').run k (fun k₁ => identifier.run k₁ some) = _
    rw [lit, run_one hk rfl]
    show (one isWord).run (k.after ['.']) (fun k₁ => (chars isWord).run k₁ some) = _
    rw [run_one hrest (hw.2 c List.mem_cons_self), after_after]
    rfl
  have hrest : (k.after ['.', c]).rest = w ++ t := rest_after_of_eq hk
  have htake : (w ++ t).takeWhile isWord = w := by
    rw [List.takeWhile_append_of_pos fun d hd => hw.2 d (List.mem_cons_of_mem _ hd)]
    cases t with
    | nil => exact List.append_nil w
    | cons d t =>
      have hd : isWord d = false := ht
      rw [List.takeWhile_cons_of_neg (by simp [hd]), List.append_nil]
  rw [← run_some_eq_head?, hrun, run_some_eq_head?]
  show ((k.after ['.', c]).stops isWord (k.after ['.', c]).rest []).head? = _
  rw [head?_stops rfl, hrest, htake, after_after]
  rfl

theorem head?_flatMap_of_head? {l : List Cursor} {f : Cursor → List Cursor} {k k' : Cursor}
    (hl : l.head? = some k) (hf : (f k).head? = some k') : (l.flatMap f).head? = some k' := by
  obtain ⟨ks, rfl⟩ := List.head?_eq_some_iff.1 hl
  rw [List.flatMap_cons, List.head?_append, hf, Option.some_or]

/-- As many words as there are come first. -/
theorem head?_outcomes_dotWords (hk : k.Counts) :
    ((many dotWord).outcomes k).head? = some (k.after (dotted (dotWords (runs k.rest)))) := by
  have hrounds : ∀ (ws : List Text) (fuel : Nat) (k : Cursor), k.Counts → k.rest.length ≤ fuel →
      dotWords (runs k.rest) = ws →
        (roundOutcomes dotWord.outcomes true fuel k).head? = some (k.after (dotted ws)) := by
    intro ws
    induction ws with
    | nil =>
      intro fuel k _ _ hws
      cases fuel with
      | zero => rfl
      | succ fuel =>
        simp only [roundOutcomes, outcomes_dotWord_of_nil hws]
        rfl
    | cons w ws ih =>
      intro fuel k hk hfuel hws
      obtain ⟨t, ht, hw, hopen, hrest⟩ := exists_of_dotWords_eq_cons hws
      rw [ht, List.length_append, List.length_cons] at hfuel
      obtain ⟨fuel, rfl⟩ : ∃ n, fuel = n + 1 := ⟨fuel - 1, by omega⟩
      have hafter : (k.after ('.' :: w)).rest = t := rest_after_of_eq ht
      have hless : (k.after ('.' :: w)).left < k.left := by
        rw [left_after, hk, ht, List.length_append, List.length_cons]
        omega
      have hnext := ih fuel (k.after ('.' :: w)) (hk.after _) (by rw [hafter]; omega)
        (by rw [hafter, hrest])
      rw [after_after] at hnext
      have hmore := head?_flatMap_of_head? (f := fun k' =>
          if k'.left < k.left then roundOutcomes dotWord.outcomes true fuel k' else [])
        (head?_outcomes_dotWord hw hopen ht) ((congrArg List.head? (if_pos hless)).trans hnext)
      simp only [roundOutcomes, if_true, List.head?_append, hmore, Option.some_or]
      rfl
  exact hrounds _ _ k hk (by rw [hk]) rfl

theorem head?_outcomes_dotWords1 (hk : k.Counts) :
    ((many1 dotWord).outcomes k).head? =
      if dotWords (runs k.rest) = [] then none
      else some (k.after (dotted (dotWords (runs k.rest)))) := by
  show ((dotWord.outcomes k).flatMap (many dotWord).outcomes).head? = _
  cases hws : dotWords (runs k.rest) with
  | nil =>
    rw [outcomes_dotWord_of_nil hws]
    rfl
  | cons w ws =>
    obtain ⟨t, ht, hw, hopen, hrest⟩ := exists_of_dotWords_eq_cons hws
    have hafter : (k.after ('.' :: w)).rest = t := rest_after_of_eq ht
    have hnext := head?_outcomes_dotWords (hk.after ('.' :: w))
    rw [hafter, hrest, after_after] at hnext
    exact head?_flatMap_of_head? (head?_outcomes_dotWord hw hopen ht) hnext

theorem findSome?_of_head? {l : List Cursor} {done : Cursor → Option Cursor} {k' : Cursor}
    (hl : l.head? = some k) (hdone : done k = some k') : l.findSome? done = some k' := by
  obtain ⟨ks, rfl⟩ := List.head?_eq_some_iff.1 hl
  rw [List.findSome?_cons, hdone]

theorem run_exactly_of_rest (hk : k.rest = w ++ t) (done : Cursor → Option Cursor) :
    (exactly w).run k done = done (k.after w) := by
  obtain ⟨b, r, n, gs⟩ := k
  obtain rfl := hk
  rw [run_exactly_append]
  simp [Cursor.after]

/-- The number of runs that a use takes: the name, and a dot and a word for each further word. -/
def useLength (name : Text) : List Run → Nat
  | .word w :: rs => if w = name ∧ dotWords rs ≠ [] then 2 * (dotWords rs).length + 1 else 0
  | _ => 0

theorem useLength_le (name : Text) (rs : List Run) : useLength name rs ≤ rs.length := by
  unfold useLength
  split
  · rename_i w rs
    split
    · obtain ⟨vs, hvs, -⟩ := exists_eq_dottedRuns rs
      have hlen := congrArg List.length hvs
      rw [List.length_append, length_dottedRuns] at hlen
      rw [List.length_cons]
      omega
    · exact Nat.zero_le _
  · exact Nat.zero_le _

/-- The runs of a use: the name and the words after dots. -/
theorem exists_of_useLength {us : List Run} (hus : us ≠ []) (hpre : us <+: rs)
    (h : useLength name rs = us.length) :
    ∃ vs, rs = .word name :: vs ∧ dotWords vs ≠ [] ∧
      us = .word name :: dottedRuns (dotWords vs) := by
  have hne : useLength name rs ≠ 0 := h ▸ mt List.eq_nil_of_length_eq_zero hus
  match rs, h, hne, hpre with
  | .word w :: vs, h, hne, hpre =>
    by_cases hw : w = name ∧ dotWords vs ≠ []
    · obtain ⟨rfl, hws⟩ := hw
      refine ⟨vs, rfl, hws, ?_⟩
      obtain ⟨xs, hxs, -⟩ := exists_eq_dottedRuns vs
      have hpre' : .word w :: dottedRuns (dotWords vs) <+: .word w :: vs := by
        rw [List.prefix_cons_inj]
        exact ⟨xs, hxs.symm⟩
      have hlen : us.length = (Run.word w :: dottedRuns (dotWords vs)).length := by
        rw [← h, List.length_cons, length_dottedRuns]
        exact if_pos ⟨rfl, hws⟩
      exact (List.prefix_of_prefix_length_le hpre hpre' hlen.le).eq_of_length hlen
    · exact absurd (if_neg hw) hne

theorem run_usageForm (name : Text) (k : Cursor) :
    (usageForm name).run k some = if k.atWordEdge then
      (exactly name).run k fun k₁ => (many1 dotWord).run k₁ fun k₂ =>
        wordEdge.run (k₂.remember 1 (k.upTo k₂)) some
    else none := rfl

theorem run_usageForm_of_nil (hk : k.rest = name ++ t) (ht : dotWords (runs t) = []) :
    (usageForm name).run k some = none := by
  have hrest : (k.after name).rest = t := rest_after_of_eq hk
  have hnone : (dotWord.outcomes (k.after name)).flatMap (many dotWord).outcomes = [] := by
    rw [outcomes_dotWord_of_nil (by rw [hrest, ht])]
    rfl
  rw [run_usageForm, run_exactly_of_rest hk, run_eq_findSome?]
  show (if _ then ((dotWord.outcomes _).flatMap _).findSome? _ else none) = none
  rw [hnone]
  exact ite_self none

/-- Where the name stands by itself, a use goes as far as there are words after dots. -/
theorem run_usageForm_of_dotWords (hname : IsIdentifier name) (hk : k.Counts)
    (hb : k.before.any isWord = false) (hrest : k.rest = name ++ t)
    (ht : dotWords (runs t) ≠ []) :
    ∃ s, (usageForm name).run k some =
      some ((k.after (name ++ dotted (dotWords (runs t)))).withGroups ((1, s) :: k.groups)) := by
  have hafter : (k.after name).rest = t := rest_after_of_eq hrest
  have hfirst : k.atWordEdge = true := by
    show (k.before.any isWord != opensWord k.rest) = true
    rw [hb, hrest, hname.opensWord]
    rfl
  have hhead := head?_outcomes_dotWords1 (hk.after name)
  rw [hafter, if_neg ht, after_after] at hhead
  obtain ⟨vs, hvs, hstop⟩ := exists_eq_dottedRuns (runs t)
  have hend : (k.after (name ++ dotted (dotWords (runs t)))).atWordEdge = true := by
    obtain ⟨ws, w, hws⟩ := List.eq_nil_or_concat (dotWords (runs t)) |>.resolve_left ht
    have hproper := proper_runs t
    rw [hvs] at hproper
    have hclose : closesWord (dotted (dotWords (runs t))) = true := by
      have hw : IsIdentifier w := by
        refine hproper.isIdentifier (List.mem_append_left _ ?_)
        simp [hws, dottedRuns]
      have hsplit : dotted (ws.concat w) = (dotted ws ++ ['.']) ++ w := by simp [dotted]
      rw [hws, hsplit, closesWord_append hw.1]
      exact hw.closesWord
    have hright := hproper.opensWord_right (by rwa [flatten_dottedRuns])
    have hne := ne_nil_of_closesWord hclose
    have hlast : (k.after (name ++ dotted (dotWords (runs t)))).before.any isWord = true := by
      show (((name ++ dotted (dotWords (runs t))).getLast?).or k.before).any isWord = true
      rw [List.getLast?_append, List.getLast?_eq_some_getLast hne, Option.some_or, Option.some_or,
        ← List.getLast?_eq_some_getLast hne]
      exact hclose
    have hopen : opensWord (k.after (name ++ dotted (dotWords (runs t)))).rest = false := by
      rw [← after_after, rest_after_of_eq (t := flatten vs)]
      · exact hright
      · rw [hafter, ← flatten_dottedRuns, ← flatten_append, ← hvs, flatten_runs]
    show (_ != opensWord _) = true
    rw [hlast, hopen]
    rfl
  refine ⟨k.upTo (k.after (name ++ dotted (dotWords (runs t)))), ?_⟩
  rw [run_usageForm, if_pos hfirst, run_exactly_of_rest hrest, run_eq_findSome?]
  exact findSome?_of_head? hhead (if_pos hend)

/-- What the form of uses finds are names with words after dots, as many as there are. -/
theorem takesRuns_usageForm (hname : IsIdentifier name) :
    TakesRuns (usageForm name) (useLength name) := by
  have hnoedge : ∀ {b : Option Char} {start left : Nat} {t : Text},
      b.any isWord = opensWord t → (usageForm name).here b start left t = none := by
    intro b start left t h
    have hedge : Cursor.atWordEdge ⟨b, t, left, []⟩ = false := by
      show (b.any isWord != opensWord t) = false
      simp [h]
    rw [here, run_usageForm, hedge]
    rfl
  refine ⟨rfl, fun hb hc => hnoedge (by simp [hb, hc]), ?_, ?_, useLength_le name⟩
  · intro b start t _ hlen
    rw [here, Option.map_eq_none_iff]
    by_cases hp : name <+: t
    · obtain ⟨r, rfl⟩ := hp
      refine run_usageForm_of_nil rfl ?_
      by_cases hr : opensWord r = true
      · obtain ⟨x, rs, hx⟩ := exists_runs_of_ne_nil (ne_nil_of_opensWord hr)
        cases x with
        | other c =>
          have hproper := proper_runs r
          rw [← flatten_runs r, hx] at hr
          rw [hx] at hproper
          simp [Run.text, hproper.1] at hr
        | word w => rw [hx, dotWords_word]
      · rw [runs_word hname (Bool.eq_false_iff.2 hr)] at hlen
        by_contra hne
        simp [useLength, hne] at hlen
    · rw [run_usageForm, run_exactly_of_not_prefix hp]
      exact ite_self none
  · intro b start us t hb hus hpre hlen
    obtain ⟨vs, hvs, hws, rfl⟩ := exists_of_useLength hus hpre hlen
    have hproper := proper_runs t
    rw [hvs] at hproper
    have ht : t = name ++ flatten vs := by rw [← flatten_runs t, hvs, flatten_cons]; rfl
    have hb' : b.any isWord = false := by
      refine Bool.eq_false_iff.2 fun h => ?_
      have hopens := hb h
      rw [ht, hname.opensWord] at hopens
      cases hopens
    have hruns : runs (flatten vs) = vs := runs_flatten hproper.2.2
    obtain ⟨s, hs⟩ := run_usageForm_of_dotWords (k := ⟨b, t, t.length, []⟩) hname rfl hb' ht
      (by rwa [hruns])
    obtain ⟨xs, hxs, -⟩ := exists_eq_dottedRuns vs
    have hrest : t = (name ++ dotted (dotWords vs)) ++ flatten xs := by
      rw [ht, List.append_assoc, ← flatten_dottedRuns, ← flatten_append, ← hxs]
    have hcount : Counts ⟨b, t, t.length, []⟩ := rfl
    refine ⟨_, congrArg (Option.map _) hs, ?_⟩
    rw [hruns]
    refine (text_upTo_after hcount hrest).trans ?_
    rw [flatten_cons, flatten_dottedRuns]
    rfl

/-! ## A text in parts -/

/-- A use of a namespace: its name with words behind it, each after a dot. -/
def IsUse (name use : Text) : Prop :=
  ∃ ws : List Text, ws ≠ [] ∧ (∀ w ∈ ws, IsIdentifier w) ∧ use = name ++ dotted ws

/-- The uses of a namespace in a text, and the characters between them. -/
def parts (name t : Text) : List (Char ⊕ Text) := ((usageForm name).pieces t).map Piece.content

theorem exists_here_of_mem_pieces {p : Pattern} {m : Match} (h : Piece.found m ∈ p.pieces t) :
    ∃ b start left u, p.here b start left u = some m := by
  have hfrom : ∀ (t : Text) b skip start left,
      Piece.found m ∈ p.piecesFrom b skip start left t →
        ∃ b start left u, p.here b start left u = some m := by
    intro t
    induction t with
    | nil =>
      intro b skip start left h
      rw [piecesFrom, Option.mem_toList, Option.map_eq_some_iff] at h
      obtain ⟨m', hm', hm⟩ := h
      cases hm
      exact ⟨_, _, _, _, hm'⟩
    | cons c t ih =>
      intro b skip start left h
      cases skip with
      | succ skip => exact ih _ _ _ _ h
      | zero =>
        unfold piecesFrom at h
        cases hhere : p.here b start left (c :: t) with
        | none =>
          rw [hhere] at h
          exact ih _ _ _ _ ((List.mem_cons.1 h).resolve_left (by rintro ⟨⟩))
        | some m' =>
          rw [hhere] at h
          dsimp only at h
          split at h
          · rcases List.mem_cons.1 h with h | h
            · cases h
              exact ⟨_, _, _, _, hhere⟩
            · exact ih _ _ _ _ ((List.mem_cons.1 h).resolve_left (by rintro ⟨⟩))
          · rcases List.mem_cons.1 h with h | h
            · cases h
              exact ⟨_, _, _, _, hhere⟩
            · exact ih _ _ _ _ h
  exact hfrom t none 0 0 t.length h

/-- A use is remembered as a whole. -/
theorem group_one_of_here {b : Option Char} {start left : Nat} {m : Match}
    (h : (usageForm name).here b start left t = some m) : m.group 1 = m.text := by
  obtain ⟨k', hrun, -, htext, hgroup⟩ := exists_run_of_here h
  have hcount : 0 < (usageForm name).groupCount := by
    show 0 < max (max 0 (max 1 _)) 0
    omega
  rw [run_usageForm] at hrun
  split at hrun
  · rw [run_eq_findSome?] at hrun
    obtain ⟨k₁, -, hrun⟩ := List.exists_of_findSome?_eq_some hrun
    rw [run_eq_findSome?] at hrun
    obtain ⟨k₂, -, hrun⟩ := List.exists_of_findSome?_eq_some hrun
    unfold run at hrun
    split at hrun
    · cases hrun
      rw [hgroup, if_pos hcount, htext]
      rfl
    · cases hrun
  · cases hrun

/-- The different uses, in order. -/
theorem usages_eq (name t : Text) :
    usages name t = ((parts name t).filterMap Sum.getRight?).eraseDups := by
  unfold usages findAll parts
  rw [List.map_filterMap, List.filterMap_map]
  congr 1
  refine List.filterMap_congr fun p hp => ?_
  cases p with
  | kept c => rfl
  | found m =>
    obtain ⟨b, start, left, u, hhere⟩ := exists_here_of_mem_pieces hp
    exact congrArg some (group_one_of_here hhere)

theorem mem_usages : u ∈ usages name t ↔ .inr u ∈ parts name t := by
  rw [usages_eq, List.mem_eraseDups, List.mem_filterMap]
  constructor
  · rintro ⟨p, hp, hu⟩
    rw [Sum.getRight?_eq_some_iff] at hu
    exact hu ▸ hp
  · exact fun h => ⟨_, h, rfl⟩

end ShaderLink.Namespaces
