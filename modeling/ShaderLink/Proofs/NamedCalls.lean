import ShaderLink.Plugin.NamedArguments
import ShaderLink.Proofs.Fits
import ShaderLink.Proofs.Segments

/-!
# Calls with named arguments

A call with named arguments is a word, an opening parenthesis and brace, anything up to the first
closing brace, and a closing parenthesis, with blanks between them (`CallText`).  Where one begins
depends on nothing that stands in front (`isSome_here_callForm`).  If it is the only one in a text,
another one with the same callee may take its place, and is the only one again (`alone_exchange`).
-/

namespace ShaderLink

open Text Pattern Cursor

/-! ## The only match in a text -/

namespace Pattern

variable {p : Pattern} {P : Text → Prop} {u v w t new : Text} {m : Match}

/-- Of all places in the text, only the one behind the first part has the property. -/
structure Alone (P : Text → Prop) (u w v : Text) : Prop where
  front : ∀ x y, u = x ++ y → y ≠ [] → ¬ P (y ++ (w ++ v))
  behind : ∀ y, y <:+ v → ¬ P y

variable (hp : ∀ b start t, (p.here b start t.length t).isSome = true ↔ P t)
include hp

theorem here_eq_none_iff (b : Option Char) (start : Nat) :
    p.here b start t.length t = none ↔ ¬ P t := by
  rw [← hp b start t, Option.not_isSome_iff_eq_none]

/-- Where nothing is found, all characters are kept. -/
theorem piecesFrom_of_none (h : ∀ y, y <:+ t → ¬ P y) (b : Option Char) (start : Nat) :
    p.piecesFrom b 0 start t.length t = t.map .kept := by
  induction t generalizing b start with
  | nil =>
    have hnone := (here_eq_none_iff hp b start).2 (h [] List.suffix_rfl)
    rw [List.length_nil] at hnone
    simp [piecesFrom, hnone]
  | cons c t ih =>
    have hnone := (here_eq_none_iff hp b start).2 (h _ List.suffix_rfl)
    rw [List.length_cons] at hnone
    simp only [piecesFrom, List.length_cons, hnone, Nat.add_sub_cancel, List.map_cons]
    rw [ih fun y hy => h y (hy.trans (List.suffix_cons c t))]

theorem not_of_found_not_mem {b : Option Char} {start : Nat}
    (h : ∀ m, Piece.found m ∉ p.piecesFrom b 0 start t.length t) : ∀ y, y <:+ t → ¬ P y := by
  induction t generalizing b start with
  | nil =>
    intro y hy hP
    obtain rfl := List.suffix_nil.1 hy
    obtain ⟨m, hm⟩ := Option.isSome_iff_exists.1 ((hp b start []).2 hP)
    rw [List.length_nil] at hm
    exact h m (by simp [piecesFrom, hm])
  | cons c t ih =>
    rw [List.length_cons] at h
    cases hhere : p.here b start (t.length + 1) (c :: t) with
    | some m =>
      refine absurd ?_ (h m)
      simp only [piecesFrom, hhere]
      split <;> exact List.mem_cons_self
    | none =>
      simp only [piecesFrom, hhere, Nat.add_sub_cancel] at h
      intro y hy
      rcases List.suffix_cons_iff.1 hy with rfl | hy
      · exact (here_eq_none_iff hp b start).1 hhere
      · exact ih (fun m hm => h m (List.mem_cons_of_mem _ hm)) y hy

omit hp in
/-- Behind a match that is not empty the search goes on. -/
theorem exists_piecesFrom_of_here {b : Option Char} {start : Nat} (hne : m.text ≠ [])
    (h : p.here b start (m.text ++ v).length (m.text ++ v) = some m) :
    ∃ b' start', p.piecesFrom b 0 start (m.text ++ v).length (m.text ++ v) =
      .found m :: p.piecesFrom b' 0 start' v.length v := by
  obtain ⟨c, w, hw⟩ := List.exists_cons_of_ne_nil hne
  refine ⟨w.getLast?.or (some c), start + 1 + w.length, ?_⟩
  rw [hw, List.cons_append, List.length_cons] at h ⊢
  simp only [piecesFrom, h, hw, List.length_cons, Nat.add_sub_cancel]
  rw [content_piecesFrom_skip]

theorem exists_alone_of_piecesFrom {found : Piece → Option Match}
    (hkept : ∀ c, found (.kept c) = none) (hfound : ∀ m, found (.found m) = some m)
    (hconsumes : p.consumes = true) (s : Text) (b : Option Char)
    (h : (p.piecesFrom b 0 s.length t.length t).filterMap found = [m]) :
    ∃ b u v, t = u ++ (m.text ++ v) ∧
      p.here b (s ++ u).length (m.text ++ v).length (m.text ++ v) = some m ∧
        Alone P u m.text v := by
  induction t generalizing s b with
  | nil =>
    cases hhere : p.here b s.length 0 [] with
    | none => simp [piecesFrom, hhere] at h
    | some m' =>
      have hnil := text_prefix_of_here hhere
      exact absurd (List.prefix_nil.1 hnil) (text_ne_nil_of_here hconsumes hhere)
  | cons c t ih =>
    rw [List.length_cons] at h
    cases hhere : p.here b s.length (t.length + 1) (c :: t) with
    | none =>
      have hlength : s.length + 1 = (s ++ [c]).length := by simp
      simp only [piecesFrom, hhere, Nat.add_sub_cancel] at h
      rw [List.filterMap_cons_none (hkept c), hlength] at h
      obtain ⟨b', u, v, rfl, hm, halone⟩ := ih (s ++ [c]) (some c) h
      refine ⟨b', c :: u, v, rfl, by simpa using hm, fun x y hxy hy => ?_, halone.behind⟩
      cases x with
      | nil =>
        obtain rfl : c :: u = y := hxy
        exact (here_eq_none_iff hp b s.length).1 hhere
      | cons d x => exact halone.front x y (List.cons.inj hxy).2 hy
    | some m' =>
      have hne : m'.text ≠ [] := text_ne_nil_of_here (t := c :: t) hconsumes hhere
      obtain ⟨v, hv⟩ := text_prefix_of_here hhere
      rw [← List.length_cons, ← hv] at h hhere
      obtain ⟨b', start', hpieces⟩ := exists_piecesFrom_of_here hne hhere
      rw [hpieces, List.filterMap_cons_some (hfound m')] at h
      obtain ⟨rfl, hrest⟩ := List.cons.inj h
      refine ⟨b, [], v, hv.symm, by simpa using hhere, fun x y hxy hy => ?_, ?_⟩
      · exact absurd (List.append_eq_nil_iff.1 hxy.symm).2 hy
      · have hnot : ∀ m, Piece.found m ∉ p.piecesFrom b' 0 start' v.length v := by
          intro m hm
          have hnone := List.filterMap_eq_nil_iff.1 hrest _ hm
          rw [hfound] at hnone
          cases hnone
        exact not_of_found_not_mem hp hnot

/-- The one match of a text, and what is around it. -/
theorem exists_alone_of_findAll (hconsumes : p.consumes = true) (h : p.findAll t = [m]) :
    ∃ b u v, t = u ++ (m.text ++ v) ∧ m.start = u.length ∧
      p.here b u.length (m.text ++ v).length (m.text ++ v) = some m ∧ Alone P u m.text v := by
  obtain ⟨b, u, v, ht, hm, halone⟩ := exists_alone_of_piecesFrom hp (fun _ => rfl) (fun _ => rfl)
    hconsumes [] none h
  exact ⟨b, u, v, ht, (exists_run_of_here hm).choose_spec.2.1, hm, halone⟩

theorem Alone.exists_piecesFrom (h : Alone P u w v) (hw : w ≠ []) (hP : P (w ++ v))
    (htext : ∀ b start m, p.here b start (w ++ v).length (w ++ v) = some m → m.text = w)
    (s : Text) (b : Option Char) :
    ∃ b' m, p.here b' (s ++ u).length (w ++ v).length (w ++ v) = some m ∧
      p.piecesFrom b 0 s.length (u ++ (w ++ v)).length (u ++ (w ++ v)) =
        u.map .kept ++ .found m :: v.map .kept := by
  induction u generalizing s b with
  | nil =>
    obtain ⟨m, hm⟩ := Option.isSome_iff_exists.1 ((hp b s.length _).2 hP)
    obtain rfl := htext b s.length m hm
    obtain ⟨b', start', hpieces⟩ := exists_piecesFrom_of_here hw hm
    refine ⟨b, m, by simpa using hm, ?_⟩
    rw [List.nil_append, hpieces, piecesFrom_of_none hp h.behind]
    rfl
  | cons c u ih =>
    have hnone := (here_eq_none_iff hp b s.length).2 (h.front [] _ rfl (List.cons_ne_nil c u))
    have htail : Alone P u w v :=
      ⟨fun x y hxy => h.front (c :: x) y (congrArg (c :: ·) hxy), h.behind⟩
    have hlength : s.length + 1 = (s ++ [c]).length := by simp
    obtain ⟨b', m, hm, hpieces⟩ := ih htail (s ++ [c]) (some c)
    rw [List.cons_append, List.length_cons] at hnone
    refine ⟨b', m, by simpa using hm, ?_⟩
    simp only [List.cons_append, List.length_cons, piecesFrom, hnone, Nat.add_sub_cancel,
      List.map_cons]
    rw [hlength, hpieces]

/-- Where something is found just once, everything else is kept. -/
theorem Alone.exists_pieces (h : Alone P u w v) (hw : w ≠ []) (hP : P (w ++ v))
    (htext : ∀ b start m, p.here b start (w ++ v).length (w ++ v) = some m → m.text = w) :
    ∃ b m, p.here b u.length (w ++ v).length (w ++ v) = some m ∧
      p.pieces (u ++ (w ++ v)) = u.map .kept ++ .found m :: v.map .kept :=
  h.exists_piecesFrom hp hw hP htext [] none

omit hp in
/-- One match is replaced, and nothing else. -/
theorem substituteM_of_pieces {f : Match → Except Fault Text}
    (h : p.pieces t = u.map .kept ++ .found m :: v.map .kept) (hf : f m = .ok new) :
    p.substituteM f t = .ok (u ++ (new ++ v)) := by
  have hkept : ∀ (g : Piece → Except Fault Text) (w : Text), (∀ c, g (.kept c) = .ok [c]) →
      (w.map Piece.kept).mapM g = .ok (w.map fun c => [c]) := by
    intro g w hg
    induction w with
    | nil => rfl
    | cons c w ih =>
      rw [List.map_cons, List.mapM_cons, ih, hg]
      rfl
  have hchars : ∀ w : Text, (w.map fun c => [c]).flatten = w := fun w => by
    rw [← List.flatMap_def, List.flatMap_singleton']
  unfold substituteM
  rw [h, List.mapM_append, hkept _ u fun _ => rfl, List.mapM_cons, hkept _ v fun _ => rfl]
  simp only [hf]
  show Except.ok ((u.map fun c => [c]) ++ new :: v.map fun c => [c]).flatten = _
  rw [List.flatten_append, List.flatten_cons, hchars, hchars]

end Pattern

/-! ## Calls -/

namespace NamedArguments

/-- The parts of a call with named arguments: the callee, the blanks around the opening parenthesis,
what stands between the braces, and the blanks behind it. -/
structure CallText where
  callee : Text
  front : Text
  back : Text
  inner : Text
  space : Text
  isIdentifier : IsIdentifier callee
  isBlank_front : front.AllBlank
  isBlank_back : back.AllBlank
  brace_not_mem : '\x7d' ∉ inner
  isBlank_space : space.AllBlank

/-- What stands behind the callee. -/
def CallText.rest (x : CallText) : Text :=
  x.front ++ '(' :: (x.back ++ '\x7b' :: (x.inner ++ '\x7d' :: (x.space ++ [')'])))

def CallText.text (x : CallText) : Text := x.callee ++ x.rest

/-- A call with named arguments begins here. -/
def BeginsCall (t : Text) : Prop := ∃ (x : CallText) (r : Text), t = x.text ++ r

variable {t u v y z r r' : Text} {m : Match} {b : Option Char} {start : Nat}

theorem accepts_inner : (few (noneOf "\x7d")).Accepts y ↔ '\x7d' ∉ y :=
  accepts_star_one.trans ⟨not_mem_of_noneOf rfl, noneOf_of_not_mem rfl⟩

theorem accepts_callForm : callForm.Accepts u ↔ ∃ x : CallText, u = x.text := by
  constructor
  · rintro ⟨_, _, ⟨_, s, ⟨_, _, ⟨_, e, ⟨_, y, ⟨_, g, ⟨_, _, ⟨_, q, ⟨_, _, ⟨w, f, hw, hf, rfl⟩,
      ho, rfl⟩, hq, rfl⟩, ho', rfl⟩, hg, rfl⟩, hy, rfl⟩, he, rfl⟩, hc, rfl⟩, hs, rfl⟩, hc', rfl⟩
    obtain rfl := accepts_lit.1 ho
    obtain rfl := accepts_lit.1 ho'
    obtain rfl := accepts_lit.1 hc
    obtain rfl := accepts_lit.1 hc'
    have hinner : '\x7d' ∉ g ++ (y ++ e) := by
      simp only [List.mem_append, not_or]
      exact ⟨Text.AllBlank.not_mem hg (by decide), accepts_inner.1 hy,
        Text.AllBlank.not_mem he (by decide)⟩
    refine ⟨⟨w, f, q, g ++ (y ++ e), s, accepts_identifier.1 hw, hf, hq, hinner, hs⟩, ?_⟩
    simp [CallText.text, CallText.rest]
  · rintro ⟨x, rfl⟩
    have htext : x.text = x.callee ++ x.front ++ ['('] ++ x.back ++ ['\x7b'] ++ [] ++ x.inner ++
        [] ++ ['\x7d'] ++ x.space ++ [')'] := by simp [CallText.text, CallText.rest]
    have hinner := accepts_inner.2 x.brace_not_mem
    exact ⟨_, _, ⟨_, _, ⟨_, _, ⟨_, _, ⟨_, _, ⟨_, _, ⟨_, _, ⟨_, _, ⟨_, _, ⟨_, _,
      accepts_identifier.2 x.isIdentifier, x.isBlank_front, rfl⟩, accepts_lit.2 rfl, rfl⟩,
      x.isBlank_back, rfl⟩, accepts_lit.2 rfl, rfl⟩, List.forall_mem_nil _, rfl⟩, hinner, rfl⟩,
      List.forall_mem_nil _, rfl⟩, accepts_lit.2 rfl, rfl⟩, x.isBlank_space, rfl⟩,
      accepts_lit.2 rfl, htext⟩

theorem isSome_here_callForm (b : Option Char) (start : Nat) (t : Text) :
    (callForm.here b start t.length t).isSome = true ↔ BeginsCall t := by
  have hk : Cursor.Counts ⟨b, t, t.length, []⟩ := rfl
  rw [here, Option.isSome_map]
  refine (isSome_run_iff rfl (blind_some id) hk).trans ?_
  constructor
  · rintro ⟨u, r, hu, ht, -⟩
    obtain ⟨x, rfl⟩ := accepts_callForm.1 hu
    exact ⟨x, r, ht⟩
  · rintro ⟨x, r, ht⟩
    exact ⟨_, r, accepts_callForm.2 ⟨x, rfl⟩, ht, rfl⟩

/-- What is found is such a call, and the arguments are taken without the blanks around them. -/
theorem exists_of_callForm (h : callForm.here b start t.length t = some m) :
    ∃ (x : CallText) (g e r : Text), t = x.text ++ r ∧ m.text = x.text ∧ m.group 1 = x.callee ∧
      g.AllBlank ∧ e.AllBlank ∧ x.inner = g ++ m.group 2 ++ e := by
  obtain ⟨k', hrun, -, htext, hgroup⟩ := exists_run_of_here h
  let k : Cursor := ⟨b, t, t.length, []⟩
  have hk : k.Counts := rfl
  have hrun : identifier.run k (fun k₁ =>
      (blanks ++ lit '(' ++ blanks ++ lit '\x7b' ++ blanks).run (k₁.remember 1 (k.upTo k₁))
        fun k₂ => (few (noneOf "\x7d")).run k₂ fun k₃ =>
          (blanks ++ lit '\x7d' ++ blanks ++ lit ')').run (k₃.remember 2 (k₂.upTo k₃)) some) =
            some k' := hrun
  obtain ⟨w, r, hw, hr, h⟩ := exists_of_run rfl rfl hrun
  rw [remember_eq] at h
  generalize hs₁ : Cursor.upTo _ _ = s₁ at h
  have hcallee : s₁.text = w := hs₁ ▸ text_upTo_after hk hr
  obtain ⟨_, r, ⟨_, g, ⟨_, _, ⟨_, q, ⟨f, _, hf, ho, rfl⟩, hq, rfl⟩, ho', rfl⟩, hg, rfl⟩, hr, h⟩ :=
    exists_of_run_after rfl rfl hr h
  obtain ⟨y, r, hy, hr', h⟩ := exists_of_run_after rfl rfl hr h
  rw [remember_eq] at h
  generalize hs₂ : Cursor.upTo _ _ = s₂ at h
  have hlist : s₂.text = y := hs₂ ▸ text_upTo_after_after hk hr'
  obtain ⟨_, r, ⟨_, _, ⟨_, s, ⟨e, _, he, hc, rfl⟩, hs, rfl⟩, hc', rfl⟩, hr, h⟩ :=
    exists_of_run_after rfl rfl hr' h
  obtain rfl := accepts_lit.1 ho
  obtain rfl := accepts_lit.1 ho'
  obtain rfl := accepts_lit.1 hc
  obtain rfl := accepts_lit.1 hc'
  cases h
  have hinner : '\x7d' ∉ g ++ y ++ e := by
    simp only [List.mem_append, not_or]
    exact ⟨⟨Text.AllBlank.not_mem hg (by decide), accepts_inner.1 hy⟩,
      Text.AllBlank.not_mem he (by decide)⟩
  let x : CallText := ⟨w, f, q, g ++ y ++ e, s, accepts_identifier.1 hw, hf, hq, hinner, hs⟩
  refine ⟨x, g, e, r, hr.trans ?_, htext.trans ((text_upTo_after hk hr).trans ?_),
    (hgroup 0).trans hcallee, hg, he, ?_⟩
  · simp [x, CallText.text, CallText.rest]
  · simp [x, CallText.text, CallText.rest]
  · rw [show m.group 2 = y from (hgroup 1).trans hlist]

/-! ## Calls begin in one way only -/

theorem forall_mem_head?_blank_append {p : Char → Bool} {c : Char} {e : Text} (he : e.AllBlank)
    (hblank : ∀ d, isBlank d = true → p d = false) (hc : p c = false) (r : Text) :
    ∀ d ∈ (e ++ c :: r).head?, p d = false := by
  cases e with
  | nil =>
    rintro _ ⟨⟩
    exact hc
  | cons d e =>
    rintro _ ⟨⟩
    exact hblank d (he d List.mem_cons_self)

theorem blanks_unique (c : Char) {e e' : Text} (he : e.AllBlank) (he' : e'.AllBlank)
    (hc : isBlank c = false) (h : e ++ c :: r = e' ++ c :: r') : e = e' ∧ r = r' := by
  have hstop : ∀ r : Text, ∀ d ∈ (c :: r).head?, isBlank d = false := by
    rintro r _ ⟨⟩
    exact hc
  obtain ⟨rfl, htail⟩ := prefix_unique he he' (hstop r) (hstop r') h
  exact ⟨rfl, (List.cons.inj htail).2⟩

/-- What a call is made of can be told from the text in which it begins. -/
theorem CallText.unique {x x' : CallText} (h : x.text ++ r = x'.text ++ r') :
    x.callee = x'.callee ∧ x.inner = x'.inner ∧ x.text = x'.text ∧ r = r' := by
  obtain ⟨w, f, q, y, s, hw, hf, hq, hy, hs⟩ := x
  obtain ⟨w', f', q', y', s', hw', hf', hq', hy', hs'⟩ := x'
  simp only [CallText.text, CallText.rest, List.append_assoc, List.cons_append,
    List.nil_append] at h ⊢
  obtain ⟨rfl, h₁⟩ := prefix_unique hw.2 hw'.2
    (forall_mem_head?_blank_append hf (fun _ => isWord_of_isBlank) (by decide) _)
    (forall_mem_head?_blank_append hf' (fun _ => isWord_of_isBlank) (by decide) _) h
  obtain ⟨rfl, h₂⟩ := blanks_unique '(' hf hf' (by decide) h₁
  obtain ⟨rfl, h₃⟩ := blanks_unique '\x7b' hq hq' (by decide) h₂
  obtain ⟨rfl, h₄⟩ := first_unique hy hy' h₃
  obtain ⟨rfl, rfl⟩ := blanks_unique ')' hs hs' (by decide) h₄
  exact ⟨rfl, rfl, rfl, rfl⟩

/-! ## One call in the place of another -/

/-- The first closing brace has a closing parenthesis behind it. -/
def Closes (t : Text) : Prop :=
  ∃ y e r : Text, '\x7d' ∉ y ∧ e.AllBlank ∧ t = y ++ '\x7d' :: (e ++ ')' :: r)

theorem beginsCall_iff : BeginsCall t ↔ ∃ w f q r : Text, IsIdentifier w ∧ f.AllBlank ∧ q.AllBlank ∧
    t = w ++ (f ++ '(' :: (q ++ '\x7b' :: r)) ∧ Closes r := by
  constructor
  · rintro ⟨x, r, rfl⟩
    refine ⟨_, _, _, _, x.isIdentifier, x.isBlank_front, x.isBlank_back, ?_,
      x.inner, x.space, r, x.brace_not_mem, x.isBlank_space, rfl⟩
    simp [CallText.text, CallText.rest]
  · rintro ⟨w, f, q, _, hw, hf, hq, rfl, y, e, r, hy, he, rfl⟩
    exact ⟨⟨w, f, q, y, e, hw, hf, hq, hy, he⟩, r, by simp [CallText.text, CallText.rest]⟩

/-- What is behind a word does not matter if that closes by itself. -/
theorem Closes.exchange {w : Text} (hw : IsIdentifier w) (h : Closes (z ++ (w ++ t)))
    (h' : Closes (w ++ r)) : Closes (z ++ (w ++ r)) := by
  by_cases hz : '\x7d' ∈ z
  · obtain ⟨a, b, rfl, ha⟩ := List.eq_append_cons_of_mem hz
    obtain ⟨y, e, s, hy, he, h⟩ := h
    rw [List.append_assoc, List.cons_append] at h
    obtain ⟨rfl, hrest⟩ := first_unique ha hy h
    obtain ⟨c, w, rfl⟩ := List.exists_cons_of_ne_nil hw.1
    have hc : isWord c = true := hw.2 c List.mem_cons_self
    -- the parenthesis stands in front of the word, which begins with neither a blank nor itself
    obtain ⟨b', rfl⟩ : ∃ b', b = e ++ ')' :: b' := by
      rcases List.append_eq_append_iff.1 hrest with ⟨d, rfl, hd⟩ | ⟨d, rfl, hd⟩
      · cases d with
        | nil =>
          obtain ⟨rfl, -⟩ := List.cons.inj hd
          exact absurd hc (by decide)
        | cons d ds =>
          obtain ⟨rfl, -⟩ := List.cons.inj hd
          have hblank := he c (List.mem_append_right b List.mem_cons_self)
          rw [isWord_of_isBlank hblank] at hc
          cases hc
      · cases d with
        | nil =>
          obtain ⟨rfl, -⟩ := List.cons.inj hd
          exact absurd hc (by decide)
        | cons d ds =>
          obtain ⟨rfl, -⟩ := List.cons.inj hd
          exact ⟨ds, rfl⟩
    exact ⟨a, e, b' ++ (c :: w ++ r), hy, he, by simp⟩
  · obtain ⟨y, e, s, hy, he, h'⟩ := h'
    refine ⟨z ++ y, e, s, ?_, he, ?_⟩
    · rw [List.mem_append, not_or]
      exact ⟨hz, hy⟩
    · rw [h', List.append_assoc]

theorem CallText.closes (x : CallText) (r : Text) : Closes (x.callee ++ (x.rest ++ r)) := by
  have hcallee : '\x7d' ∉ x.callee := fun hmem => absurd (x.isIdentifier.2 _ hmem) (by decide)
  have hfront : '\x7d' ∉ x.front := Text.AllBlank.not_mem x.isBlank_front (by decide)
  have hback : '\x7d' ∉ x.back := Text.AllBlank.not_mem x.isBlank_back (by decide)
  refine ⟨x.callee ++ (x.front ++ '(' :: (x.back ++ '\x7b' :: x.inner)), x.space, r, ?_,
    x.isBlank_space, by simp [CallText.rest]⟩
  simp [hcallee, hfront, hback, x.brace_not_mem]

/-- If a call begins in front of a word, then also if that word is the callee of another one. -/
theorem BeginsCall.exchange (x : CallText) (hz : z ≠ []) (h : BeginsCall (z ++ (x.callee ++ t)))
    (r : Text) : BeginsCall (z ++ (x.callee ++ (x.rest ++ r))) := by
  obtain ⟨w, f, q, s, hw, hf, hq, h, hs⟩ := beginsCall_iff.1 h
  have hcut : z ++ (x.callee ++ t) = (w ++ (f ++ '(' :: (q ++ ['\x7b']))) ++ s := by
    rw [h]
    simp
  have hbehind : ∀ a, z = w ++ (f ++ '(' :: (q ++ ['\x7b'])) ++ a → s = a ++ (x.callee ++ t) →
      BeginsCall (z ++ (x.callee ++ (x.rest ++ r))) := by
    rintro a rfl rfl
    refine beginsCall_iff.2 ⟨w, f, q, _, hw, hf, hq, ?_, hs.exchange x.isIdentifier (x.closes r)⟩
    simp
  rcases List.append_eq_append_iff.1 hcut with ⟨a, ha, hs'⟩ | ⟨a, ha, hs'⟩
  · cases a with
    | nil => exact hbehind [] (by rw [ha]; simp) hs'.symm
    | cons c a =>
      -- the brace comes later, so the word is a part of the callee
      obtain ⟨d, v, hv⟩ := List.exists_cons_of_ne_nil x.isIdentifier.1
      have hc : isWord c = true := by
        rw [hv] at hs'
        exact (List.cons.inj hs').1 ▸ x.isIdentifier.2 d (hv ▸ List.mem_cons_self)
      have hother : ∀ e ∈ f ++ '(' :: (q ++ ['\x7b']), isWord e = false := by
        intro e he
        simp only [List.mem_append, List.mem_cons, List.not_mem_nil, or_false] at he
        rcases he with he | rfl | he | rfl
        · exact isWord_of_isBlank (hf e he)
        · decide
        · exact isWord_of_isBlank (hq e he)
        · decide
      have hword : ∀ e ∈ z, isWord e = true := by
        rcases List.append_eq_append_iff.1 ha with ⟨b, rfl, hb⟩ | ⟨b, rfl, -⟩
        · have hmem : c ∈ f ++ '(' :: (q ++ ['\x7b']) := by simp [hb]
          rw [hother c hmem] at hc
          cases hc
        · exact fun e he => hw.2 e (List.mem_append_left _ he)
      have hcallee : IsIdentifier (z ++ x.callee) :=
        ⟨by simp [hz], fun e he => (List.mem_append.1 he).elim (hword e) (x.isIdentifier.2 e)⟩
      exact ⟨{ x with callee := z ++ x.callee, isIdentifier := hcallee }, r,
        by simp [CallText.text, CallText.rest]⟩
  · exact hbehind a ha hs'

/-- Another call with the same callee takes the place of the only one, and is the only one. -/
theorem alone_exchange {x x' : CallText} (h : Alone BeginsCall u x.text v)
    (hcallee : x'.callee = x.callee) : Alone BeginsCall u x'.text v where
  front y z hyz hz hbegins := by
    refine h.front y z hyz hz ?_
    rw [CallText.text, hcallee, List.append_assoc] at hbegins
    rw [CallText.text, List.append_assoc]
    exact hbegins.exchange x hz v
  behind := h.behind

/-- The one call in a text is found, and all else is kept. -/
theorem CallText.exists_pieces (x : CallText) (h : Alone BeginsCall u x.text v) :
    ∃ m g e, callForm.pieces (u ++ (x.text ++ v)) = u.map .kept ++ .found m :: v.map .kept ∧
      m.text = x.text ∧ m.group 1 = x.callee ∧ AllBlank g ∧ AllBlank e ∧
        x.inner = g ++ m.group 2 ++ e := by
  have hfound : ∀ b start m, callForm.here b start (x.text ++ v).length (x.text ++ v) = some m →
      m.text = x.text ∧ m.group 1 = x.callee ∧ ∃ g e, AllBlank g ∧ AllBlank e ∧
        x.inner = g ++ m.group 2 ++ e := by
    intro b start m hm
    obtain ⟨x', g, e, r, ht, htext, hcallee, hg, he, hinner⟩ := exists_of_callForm hm
    obtain ⟨hw, hi, hx, -⟩ := CallText.unique ht
    exact ⟨htext.trans hx.symm, hcallee.trans hw.symm, g, e, hg, he, hi.trans hinner⟩
  obtain ⟨w, r, hw⟩ := List.exists_cons_of_ne_nil x.isIdentifier.1
  have hne : x.text ≠ [] := by
    rw [CallText.text, hw]
    exact List.cons_ne_nil _ _
  obtain ⟨b, m, hm, hpieces⟩ := h.exists_pieces isSome_here_callForm hne ⟨x, v, rfl⟩
    fun b start m hm => (hfound b start m hm).1
  obtain ⟨htext, hcallee, g, e, hg, he, hinner⟩ := hfound b _ m hm
  exact ⟨m, g, e, hpieces, htext, hcallee, hg, he, hinner⟩

end NamedArguments

end ShaderLink
