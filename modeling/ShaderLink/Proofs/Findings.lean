import ShaderLink.Proofs.Fits

/-!
# Searching a module of declarations

When it is the turn of a kind, its form finds the next declaration of the kind that is still there,
from its first character on (`PicksOut.search_cases`), and all of them one after the other
(`PicksOut.finding_sequence`).  Between declarations, and where some have been taken out, there are
blanks, with which no form begins what it takes.
-/

namespace ShaderLink

open Text Pattern

variable {i : Item} {e : Slot} {es as pre post : List Slot} {a b f r s t u : Text} {c : Char}
  {b₀ : Option Char} {start : Nat} {m : Match} {ms : List Match} {form : Pattern}
  {hidden : List Kind} {wanted : Option Kind}

/-! ## Places in a module -/

/-- The declarations in front of another one, each with the end of its line. -/
def preceding (es : List Slot) : Text := es.flatMap fun e => e.shown ++ ['\n']

theorem sourceOf_append_cons (pre : List Slot) (e : Slot) (post : List Slot) :
    sourceOf (pre ++ e :: post) = preceding pre ++ (e.shown ++ following post) := by
  induction pre with
  | nil => exact sourceOf_cons e post
  | cons e' pre ih =>
    have hline : following (pre ++ e :: post) = '\n' :: sourceOf (pre ++ e :: post) := by
      cases pre with
      | nil => rw [List.nil_append, following_cons, sourceOf_cons]
      | cons e₂ pre => rw [List.cons_append, following_cons, sourceOf_cons]
    rw [List.cons_append, sourceOf_cons, hline, ih]
    simp [preceding]

theorem following_eq (es : List Slot) :
    ∃ g, (g = [] ∨ g = ['\n']) ∧ following es = g ++ sourceOf es := by
  cases es with
  | nil => exact ⟨[], Or.inl rfl, rfl⟩
  | cons e es => exact ⟨['\n'], Or.inr rfl, by rw [following_cons, sourceOf_cons]; rfl⟩

theorem length_shown (e : Slot) : e.shown.length = e.1.text.length := by
  unfold Slot.shown
  split
  · rfl
  · exact List.length_replicate

/-! ## Searching -/

theorem searchFrom_of_here (h : form.here b₀ start t.length t = some m) :
    form.searchFrom b₀ start t.length t = some m := by
  cases t with
  | nil => exact h
  | cons c t =>
    unfold searchFrom
    rw [h]

/-- Where nothing is found, the search goes on behind. -/
theorem searchFrom_append (h : ∀ y z, s = y ++ z → z ≠ [] →
    form.here (y.getLast?.or b₀) (start + y.length) (z ++ r).length (z ++ r) = none) :
    form.searchFrom b₀ start (s ++ r).length (s ++ r) =
      form.searchFrom (s.getLast?.or b₀) (start + s.length) r.length r := by
  induction s generalizing b₀ start with
  | nil => rfl
  | cons c s ih =>
    have hhere := h [] (c :: s) rfl (List.cons_ne_nil c s)
    have hrest : ∀ y z, s = y ++ z → z ≠ [] →
        form.here (y.getLast?.or (some c)) (start + 1 + y.length) (z ++ r).length (z ++ r) =
          none := by
      intro y z hs hz
      have hnext := h (c :: y) z (by rw [hs]; rfl) hz
      rw [← getLast?_or_cons, List.length_cons, ← Nat.add_assoc, Nat.add_right_comm] at hnext
      exact hnext
    have hstep : form.searchFrom b₀ start (c :: s ++ r).length (c :: s ++ r) =
        form.searchFrom (some c) (start + 1) (s ++ r).length (s ++ r) := by
      rw [List.cons_append, searchFrom]
      have hnone : form.here b₀ start (c :: (s ++ r)).length (c :: (s ++ r)) = none := hhere
      rw [hnone]
      rfl
    rw [hstep, ih hrest, getLast?_or_cons c s b₀, List.length_cons, ← Nat.add_assoc,
      Nat.add_right_comm]

/-! ## What a form finds -/

/-- Regular declarations only, and none of some kinds that is still there. -/
def Left (hidden : List Kind) (es : List Slot) : Prop :=
  ∀ e ∈ es, e.1.Regular ∧ (e.2 = true → e.1.kind ∉ hidden)

/-- No declaration of the kind is there. -/
def Lacks (wanted : Option Kind) (es : List Slot) : Prop :=
  ∀ e ∈ es, e.2 = true → some e.1.kind ≠ wanted

/-- The form takes the declarations of one kind as a whole, where those of some kinds are not there
any more, and finds nothing in the others. -/
structure PicksOut (form : Pattern) (hidden : List Kind) (wanted : Option Kind) : Prop where
  begins : ∀ {b : Option Char} {start : Nat} {t : Text} {m : Match},
    form.here b start t.length t = some m →
    ∃ u c r, IsIndent u ∧ isBlank c = false ∧ t = u ++ c :: r
  takes : ∀ {i : Item} {es : List Slot} {b : Option Char} {start : Nat},
    i.Regular → some i.kind = wanted → Left hidden es → BeginsLine b →
    ∃ m, form.here b start (i.text ++ following es).length (i.text ++ following es) = some m ∧
      m.start = start ∧ i.ReadBy m
  others : ∀ {i : Item} {es : List Slot} {a t : Text} {b : Option Char} {start : Nat},
    i.Regular → i.kind ∉ hidden → some i.kind ≠ wanted → Left hidden es → i.text = a ++ t → t ≠ [] →
    (a ≠ [] → b = a.getLast?) →
    form.here b start (t ++ following es).length (t ++ following es) = none

namespace PicksOut

/-- Nothing is found at blanks up to the end of a line. -/
theorem here_blank (h : PicksOut form hidden wanted) (hu : ∀ c ∈ u, c = ' ') (hr : EndsLine r) :
    form.here b₀ start (u ++ r).length (u ++ r) = none := by
  refine Option.eq_none_iff_forall_not_mem.2 fun m hm => ?_
  obtain ⟨v, c, t, hv, hc, ht⟩ := h.begins hm
  have hindent : ∀ {v : Text}, IsIndent v → ∀ d ∈ v, (d == ' ' || d == '\t') = true :=
    fun hv d hd => by simpa using hv d hd
  have hspaces : IsIndent u := fun d hd => Or.inl (hu d hd)
  have hstop : ∀ d ∈ r.head?, (d == ' ' || d == '\t') = false := by
    rcases hr with rfl | ⟨r, rfl⟩
    · exact nofun
    · rintro _ ⟨⟩
      decide
  have hfirst : ∀ d ∈ (c :: t).head?, (d == ' ' || d == '\t') = false := by
    rintro _ ⟨⟩
    have hspace : c ≠ ' ' := fun hd => absurd (hd ▸ hc) (by decide)
    have htab : c ≠ '\t' := fun hd => absurd (hd ▸ hc) (by decide)
    simp [hspace, htab]
  obtain ⟨-, htail⟩ := prefix_unique (hindent hspaces) (hindent hv) hstop hfirst ht
  rcases hr with rfl | ⟨r, rfl⟩
  · cases htail
  · rw [← (List.cons.inj htail).1] at hc
    exact absurd hc (by decide)

/-- Nothing is found from a place of another declaration on. -/
theorem here_shown (h : PicksOut form hidden wanted)
    (he : e.1.Regular ∧ (e.2 = true → e.1.kind ∉ hidden))
    (hother : e.2 = true → some e.1.kind ≠ wanted) (hes : Left hidden es)
    (hcut : e.shown = a ++ t) (ht : t ≠ []) (hbefore : a ≠ [] → b₀ = a.getLast?) :
    form.here b₀ start (t ++ following es).length (t ++ following es) = none := by
  obtain ⟨i, shown⟩ := e
  cases shown with
  | true => exact h.others he.1 (he.2 rfl) (hother rfl) hes (shown_true i ▸ hcut) ht hbefore
  | false =>
    refine h.here_blank (fun c hc => ?_) (endsLine_following es)
    rw [shown_false] at hcut
    exact List.eq_of_mem_replicate (hcut ▸ List.mem_append_right a hc)

/-- The search goes over a declaration of another kind, or over the blanks in its place. -/
theorem searchFrom_shown (h : PicksOut form hidden wanted)
    (he : e.1.Regular ∧ (e.2 = true → e.1.kind ∉ hidden))
    (hother : e.2 = true → some e.1.kind ≠ wanted) (hes : Left hidden es) :
    form.searchFrom b₀ start (e.shown ++ following es).length (e.shown ++ following es) =
      form.searchFrom (e.shown.getLast?.or b₀) (start + e.shown.length) (following es).length
        (following es) := by
  refine searchFrom_append fun y z hcut hz => h.here_shown he hother hes hcut hz fun hy => ?_
  rw [List.getLast?_eq_some_getLast hy]
  rfl

/-- The search goes over the end of a line. -/
theorem searchFrom_newline (h : PicksOut form hidden wanted) (b₀ : Option Char) (start : Nat)
    (t : Text) : form.searchFrom b₀ start ('\n' :: t).length ('\n' :: t) =
      form.searchFrom (some '\n') (start + 1) t.length t := by
  have hnone : form.here b₀ start ('\n' :: t).length ('\n' :: t) = none :=
    h.here_blank (List.forall_mem_nil _) (Or.inr ⟨t, rfl⟩)
  rw [searchFrom, hnone]
  rfl

/-- The form finds the first declaration of the kind that is there. -/
theorem searchFrom_cases (h : PicksOut form hidden wanted) (start : Nat) (hes : Left hidden es)
    (hb : BeginsLine b₀) :
    (form.searchFrom b₀ start (sourceOf es).length (sourceOf es) = none ∧ Lacks wanted es) ∨
    ∃ pre i post m, es = pre ++ (i, true) :: post ∧ Lacks wanted pre ∧ some i.kind = wanted ∧
      form.searchFrom b₀ start (sourceOf es).length (sourceOf es) = some m ∧
      m.start = start + (preceding pre).length ∧ i.ReadBy m := by
  induction es generalizing b₀ start with
  | nil => exact Or.inl ⟨h.here_blank (List.forall_mem_nil _) (Or.inl rfl), List.forall_mem_nil _⟩
  | cons e es ih =>
    obtain ⟨he, hleft⟩ := List.forall_mem_cons.1 hes
    rw [sourceOf_cons]
    by_cases hother : e.2 = true → some e.1.kind ≠ wanted
    · have hcons : ∀ {pre : List Slot}, Lacks wanted pre → Lacks wanted (e :: pre) := fun hpre =>
        List.forall_mem_cons.2 ⟨hother, hpre⟩
      rw [h.searchFrom_shown he hother hleft]
      cases es with
      | nil =>
        exact Or.inl ⟨h.here_blank (List.forall_mem_nil _) (Or.inl rfl),
          hcons (List.forall_mem_nil _)⟩
      | cons e' es =>
        have hline : following (e' :: es) = '\n' :: sourceOf (e' :: es) := by
          rw [following_cons, sourceOf_cons]
        rw [hline, h.searchFrom_newline]
        rcases ih (start + e.shown.length + 1) hleft (Or.inr rfl) with
          ⟨hsearch, hlacks⟩ | ⟨pre, i, post, m, hsplit, hpre, hi, hsearch, hstart, hread⟩
        · exact Or.inl ⟨hsearch, hcons hlacks⟩
        · refine Or.inr ⟨e :: pre, i, post, m, by rw [hsplit]; rfl, hcons hpre, hi, hsearch, ?_,
            hread⟩
          rw [hstart]
          simp [preceding]
          omega
    · rw [Classical.not_imp, not_not] at hother
      obtain ⟨i, shown⟩ := e
      obtain ⟨rfl, hi⟩ := hother
      obtain ⟨m, hm, hstart, hread⟩ : ∃ m, form.here b₀ start (i.text ++ following es).length
          (i.text ++ following es) = some m ∧ m.start = start ∧ i.ReadBy m :=
        h.takes he.1 hi hleft hb
      refine Or.inr ⟨[], i, es, m, rfl, List.forall_mem_nil _, hi, ?_, hstart, hread⟩
      rw [shown_true]
      exact searchFrom_of_here hm

end PicksOut

/-! ## Forms -/

theorem begins_of_isIdentifier {w : Text} (hw : IsIdentifier w) (ht : t = u ++ (w ++ r))
    (hu : IsIndent u) : ∃ u c r, IsIndent u ∧ isBlank c = false ∧ t = u ++ c :: r := by
  obtain ⟨c, v, rfl⟩ := List.exists_cons_of_ne_nil hw.1
  exact ⟨u, c, v ++ r, hu, isBlank_of_isSized (isSized_of_isWord (hw.2 c List.mem_cons_self)), ht⟩

theorem Layout.exists_begins (x : Layout) (ht : x.text <+: t) :
    ∃ u c r, IsIndent u ∧ isBlank c = false ∧ t = u ++ c :: r := by
  obtain ⟨w, v, hw, hv⟩ := x.exists_first_word
  obtain ⟨r, rfl⟩ := ht
  exact begins_of_isIdentifier (u := []) (r := v ++ r) hw (by rw [hv]; simp) nofun

theorem Kind.exists_begins (kind : Kind) (h : kind.searchForm.here b₀ start t.length t = some m) :
    ∃ u c r, IsIndent u ∧ isBlank c = false ∧ t = u ++ c :: r := by
  have hlayout : ∀ {x : Layout}, x.ReadBy kind m → x.text <+: t := fun hx =>
    hx.text ▸ text_prefix_of_here h
  cases kind with
  | function =>
    obtain ⟨w, g, w', g', p, s, r, hw, -, -, -, -, -, ht, -⟩ := exists_of_function h
    exact begins_of_isIdentifier (u := []) hw (by rw [ht]; simp; rfl) nofun
  | global =>
    obtain ⟨x, hx⟩ := exists_layout_of_global h
    exact x.exists_begins (hlayout hx)
  | uniform =>
    obtain ⟨x, hx⟩ := exists_layout_of_uniform h
    exact x.exists_begins (hlayout hx)
  | struct =>
    obtain ⟨-, i, g, n, s, f, s', r, hi, -, -, -, -, -, ht, -⟩ := exists_of_struct h
    exact ⟨i, 's', _, hi, by decide, ht⟩
  | define =>
    obtain ⟨-, i, g, n, p, g', c, r, hi, -, -, -, -, -, ht, -⟩ := exists_of_define h
    exact ⟨i, '#', _, hi, by decide, ht⟩

/-- When it is its turn, a kind is picked out by its form. -/
theorem Kind.picksOut (kind : Kind) : PicksOut kind.searchForm kind.earlier (some kind) where
  begins := kind.exists_begins
  takes := by
    intro i es b start hi hwanted hes hb
    obtain rfl := Option.some.inj hwanted
    refine hi.exists_here hb fun hglobal e he hshown hfunction => (hes e he).2 hshown ?_
    rw [hglobal, hfunction]
    decide
  others := by
    intro i es a t b start hi hturn hother hes hab ht hbefore
    refine Option.eq_none_iff_forall_not_mem.2 fun m hm => hother (congrArg some ?_)
    cases kind with
    | function => exact kind_of_function hi (fun e he => (hes e he).1) hab ht hm
    | global => exact kind_of_global hi hturn hab ht hm
    | uniform => exact kind_of_uniform hi hturn hab ht hm
    | struct => exact kind_of_struct hi hturn hab hbefore hm
    | define =>
      revert hturn
      cases i.kind <;> decide

theorem picksOut_imports : PicksOut Statement.importForm [] none where
  begins := by
    intro b start t m hm
    obtain ⟨g, x, s, r, -, -, -, ht⟩ := exists_of_import hm
    exact ⟨[], 'i', _, nofun, by decide, ht⟩
  takes := fun _ hwanted => nomatch hwanted
  others := fun _ _ _ _ hab ht _ => not_import hab ht

theorem picksOut_exports : PicksOut Statement.exportForm [] none where
  begins := by
    intro b start t m hm
    obtain ⟨-, i, g, r, hi, -, ht⟩ := exists_of_export hm
    exact ⟨i, 'e', _, hi, by decide, ht⟩
  takes := fun _ hwanted => nomatch hwanted
  others := fun _ _ _ _ hab ht hbefore => not_export hab ht hbefore

/-! ## One after the other -/

/-- The matches are those of the declarations of a kind that are there, in order.  Before the first
of these declarations there are others already. -/
inductive Finding (wanted : Option Kind) : List Slot → List Slot → List Match → Prop
  | none {as es : List Slot} (h : Lacks wanted es) : Finding wanted as es []
  | next {as pre post : List Slot} {i : Item} {m : Match} {ms : List Match}
      (hpre : Lacks wanted pre) (hi : some i.kind = wanted)
      (hstart : m.start = (preceding (as ++ pre)).length) (hread : i.ReadBy m)
      (h : Finding wanted (as ++ pre ++ [(i, false)]) post ms) :
      Finding wanted as (pre ++ (i, true) :: post) (m :: ms)

theorem Item.ReadBy.text_eq (h : i.ReadBy m) (hi : i.kind ≠ .function) : m.text = i.text := by
  cases i with
  | function x => exact absurd rfl hi
  | global x | uniform x | struct x | define x => exact h.1

theorem Item.ReadBy.shift (h : i.ReadBy m) (n : Nat) : i.ReadBy (m.shift n) := by
  cases i with
  | function x | global x | uniform x | struct x | define x => exact h

/-- The search goes on at the end of a line. -/
theorem PicksOut.search_cases (h : PicksOut form hidden wanted) (hes : Left hidden es) {g : Text}
    (hg : g = [] ∨ g = ['\n']) :
    (form.search (g ++ sourceOf es) = none ∧ Lacks wanted es) ∨
    ∃ pre i post m, es = pre ++ (i, true) :: post ∧ Lacks wanted pre ∧ some i.kind = wanted ∧
      form.search (g ++ sourceOf es) = some m ∧
      m.start = g.length + (preceding pre).length ∧ i.ReadBy m := by
  have hsearch : form.search (g ++ sourceOf es) =
      form.searchFrom (g.getLast?.or none) (0 + g.length) (sourceOf es).length (sourceOf es) := by
    rcases hg with rfl | rfl
    · rfl
    · exact h.searchFrom_newline none 0 (sourceOf es)
  have hline : BeginsLine (g.getLast?.or none) := by
    rcases hg with rfl | rfl
    · exact Or.inl rfl
    · exact Or.inr rfl
  rw [Nat.zero_add] at hsearch
  rw [hsearch]
  exact h.searchFrom_cases _ hes hline

theorem Item.text_ne_nil (i : Item) : i.text ≠ [] := by
  obtain ⟨c, t, htext, -⟩ := i.exists_head
  exact htext ▸ List.cons_ne_nil c t

theorem PicksOut.finding_sequenceFrom (h : PicksOut form hidden wanted)
    (hwanted : wanted ≠ some .function) (as : List Slot) {fuel : Nat} {g : Text}
    (hes : Left hidden es) (hg : g = [] ∨ g = ['\n'])
    (hcut : sourceOf (as ++ es) = sourceOf as ++ (g ++ sourceOf es))
    (hfuel : (g ++ sourceOf es).length < fuel) :
    Finding wanted as es (form.sequenceFrom fuel (sourceOf as).length (g ++ sourceOf es)) := by
  induction fuel generalizing as es g with
  | zero => exact absurd hfuel (Nat.not_lt_zero _)
  | succ fuel ih =>
    rw [sequenceFrom]
    rcases h.search_cases hes hg with
      ⟨hsearch, hlacks⟩ | ⟨pre, i, post, m, rfl, hpre, hi, hsearch, hstart, hread⟩
    · rw [hsearch]
      exact .none hlacks
    rw [hsearch]
    obtain ⟨g', hg', hfollowing⟩ := following_eq post
    -- what the match has used up, and what is left behind it
    have htext : g ++ sourceOf (pre ++ (i, true) :: post) =
        (g ++ preceding pre ++ i.text) ++ (g' ++ sourceOf post) := by
      rw [sourceOf_append_cons, shown_true, hfollowing]
      simp only [List.append_assoc]
    have hpos : 0 < i.text.length := List.length_pos_iff.2 i.text_ne_nil
    have hused : max m.stop 1 = (g ++ preceding pre ++ i.text).length := by
      have hkind : i.kind ≠ .function := fun hfunction => hwanted (hfunction ▸ hi).symm
      rw [Match.stop, hread.text_eq hkind, hstart, List.length_append, List.length_append]
      omega
    -- where the next search begins
    have hplace : (preceding (as ++ pre)).length =
        (sourceOf as).length + (g.length + (preceding pre).length) := by
      rw [← List.append_assoc, sourceOf_append_cons, sourceOf_append_cons] at hcut
      have hlength := congrArg List.length hcut
      simp only [List.length_append] at hlength
      omega
    have hbehind : (sourceOf as).length + max m.stop 1 =
        (sourceOf (as ++ pre ++ [(i, false)])).length := by
      rw [hused, sourceOf_append_cons]
      simp only [List.length_append, length_shown, following_nil, List.length_nil]
      omega
    refine .next hpre hi ?_ (hread.shift _) ?_
    · rw [hplace, ← hstart, Nat.add_comm]
      rfl
    · rw [htext, hused, List.drop_left, ← hused, hbehind]
      refine ih _ (fun e he => hes e (by simp [he])) hg' ?_ ?_
      · rw [List.append_assoc, List.singleton_append, sourceOf_append_cons, sourceOf_append_cons,
          hfollowing]
        simp
      · rw [htext] at hfuel
        simp only [List.length_append] at hfuel ⊢
        omega

/-- The matches found one after the other are those of the declarations of the kind. -/
theorem PicksOut.finding_sequence (h : PicksOut form hidden wanted)
    (hwanted : wanted ≠ some .function) (hes : Left hidden es) :
    Finding wanted [] es (form.sequence (sourceOf es)) :=
  h.finding_sequenceFrom hwanted [] (g := []) hes (Or.inl rfl) rfl (Nat.lt_succ_self _)

end ShaderLink
