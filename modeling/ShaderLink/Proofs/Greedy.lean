import ShaderLink.Proofs.Rereading
import ShaderLink.Proofs.Statements

/-!
# Patterns that take a text at the first attempt

A pattern may have several ways to go on from a place.  `Takes` says what its first attempt is: the
text that it takes and what it remembers, given what stands behind.  If each part of a pattern takes
its text in this way, so does the whole (`Takes.seq`), and nothing is ever tried again: a run of
characters ends where it has to, and an optional part is there or cannot be there.  A match is then
known in all its groups (`Takes.here`).
-/

namespace ShaderLink.Pattern

open Text Cursor

variable {p q : Pattern} {test : Char → Bool} {b : Option Char} {c : Char} {n : Nat} {s : String}
  {u v w r t : Text} {gs gs' gs'' : List (Nat × Span)}

/-- With one character before and a text behind, the first attempt of the pattern takes `v`, and
what is remembered goes from `gs` to `gs'`. -/
def Takes (p : Pattern) (b : Option Char) (gs : List (Nat × Span)) (v r : Text)
    (gs' : List (Nat × Span)) : Prop :=
  ∀ left, left = (v ++ r).length →
    p.run ⟨b, v ++ r, left, gs⟩ some = some ⟨v.getLast?.or b, r, left - v.length, gs'⟩

/-! ## One part after the other -/

/-- Where the first attempt leads on, no other is made. -/
theorem run_of_run_some {k k₁ k' : Cursor} {done : Cursor → Option Cursor}
    (h : p.run k some = some k₁) (hdone : done k₁ = some k') : p.run k done = some k' := by
  rw [run_some_eq_head?] at h
  obtain ⟨ks, hks⟩ := List.head?_eq_some_iff.1 h
  rw [run_eq_findSome?, hks, List.findSome?_cons, hdone]

theorem Takes.seq (hp : p.Takes b gs u (v ++ r) gs') (hq : q.Takes (u.getLast?.or b) gs' v r gs'') :
    (p ++ q).Takes b gs (u ++ v) r gs'' := by
  intro left hleft
  rw [List.append_assoc] at hleft ⊢
  have hrest : left - u.length = (v ++ r).length := by
    rw [hleft, List.length_append, Nat.add_sub_cancel_left]
  show p.run _ (fun k => q.run k some) = _
  refine run_of_run_some (hp left hleft) ((hq _ hrest).trans ?_)
  rw [List.getLast?_append, Option.or_assoc, List.length_append, Nat.sub_sub]

/-- The second part may take nothing. -/
theorem Takes.seq_nil (hp : p.Takes b gs u r gs') (hq : q.Takes (u.getLast?.or b) gs' [] r gs'') :
    (p ++ q).Takes b gs u r gs'' :=
  List.append_nil u ▸ hp.seq hq

theorem Takes.group (h : p.Takes b gs v r gs') (n : Nat) :
    (group n p).Takes b gs v r ((n, ⟨v ++ r, v.length⟩) :: gs') := by
  intro left hleft
  let k : Cursor := ⟨b, v ++ r, left, gs⟩
  show p.run k (fun k' => some (k'.remember n (k.upTo k'))) = _
  refine run_of_run_some (h left hleft) ?_
  have hle : v.length ≤ left := by simp [hleft]
  simp [k, Cursor.remember, Cursor.upTo, Nat.sub_sub_self hle]

theorem Takes.optional (h : p.Takes b gs v r gs') : (optional p).Takes b gs v r gs' := by
  intro left hleft
  show (p.run _ some).orElse _ = _
  rw [h left hleft]
  rfl

/-! ## Single parts -/

theorem takes_empty : empty.Takes b gs [] r gs := fun _ _ => rfl

theorem takes_one (hc : test c = true) : (one test).Takes b gs [c] r gs := by
  intro left _
  exact if_pos hc

theorem takes_lit : (lit c).Takes b gs [c] r gs := takes_one (beq_self_eq_true c)

theorem takes_exactly (w : Text) : (exactly w).Takes b gs w r gs := by
  induction w generalizing b with
  | nil => exact takes_empty
  | cons c w ih => exact takes_lit.seq ih

theorem takes_phrase (s : String) : (phrase s).Takes b gs s.toList r gs := takes_exactly s.toList

/-- A run of characters ends where no other follows. -/
theorem takes_chars (hv : ∀ c ∈ v, test c = true) (hr : ∀ c ∈ r.head?, test c = false) :
    (chars test).Takes b gs v r gs := by
  intro left _
  have hrun : (v ++ r).takeWhile test = v := by
    rw [List.takeWhile_append_of_pos hv]
    cases r with
    | nil => simp
    | cons d r => simp [hr d rfl]
  rw [run_some_eq_head?, outcomes, head?_stops rfl, hrun]
  simp [Cursor.after]

theorem takes_many1 (hne : v ≠ []) (hv : ∀ c ∈ v, test c = true)
    (hr : ∀ c ∈ r.head?, test c = false) : (many1 (one test)).Takes b gs v r gs := by
  obtain ⟨c, v, rfl⟩ := List.exists_cons_of_ne_nil hne
  obtain ⟨hc, hv⟩ := List.forall_mem_cons.1 hv
  exact (takes_one hc).seq (takes_chars hv hr)

theorem takes_identifier (hw : IsIdentifier w) (hr : opensWord r = false) :
    identifier.Takes b gs w r gs := by
  refine takes_many1 hw.1 hw.2 fun c hc => ?_
  cases r with
  | nil => cases hc
  | cons d r =>
    cases hc
    exact hr

theorem takes_again (h : (gs.lookup n).map Span.text = some v) : (again n).Takes b gs v r gs := by
  intro left _
  have hgroup : Cursor.group? ⟨b, v ++ r, left, gs⟩ n = some v := h
  have hpast : Cursor.past v ⟨b, v ++ r, left, gs⟩ =
      some (Cursor.after ⟨b, v ++ r, left, gs⟩ v) :=
    Namespaces.past_eq_some_iff.2 ⟨r, rfl, rfl⟩
  rw [run, hgroup, Option.bind_some, hpast]
  simp [Cursor.after]

/-- Where an optional part cannot be, it is left out. -/
theorem takes_optional_nil (h : ∀ k : Cursor, k.rest = r → p.run k some = none) :
    (optional p).Takes b gs [] r gs := by
  intro left _
  show (p.run _ some).orElse _ = _
  rw [h _ rfl]
  rfl

theorem takes_textStart : textStart.Takes none gs [] r gs := fun _ _ => rfl

theorem takes_lineStart (hb : BeginsLine b) : lineStart.Takes b gs [] r gs := by
  intro left _
  rcases hb with rfl | rfl <;> rfl

theorem takes_textEnd : textEnd.Takes b gs [] [] gs := fun _ _ => rfl

theorem takes_lineEnd (hr : EndsLine r) : lineEnd.Takes b gs [] r gs := by
  intro left _
  exact run_lineEnd hr

/-! ## Matches -/

/-- The texts remembered under the first numbers. -/
def firstTexts (n : Nat) (gs : List (Nat × Span)) : List (Option Text) :=
  (List.range n).map fun i => (gs.lookup (i + 1)).map Span.text

variable {texts : List (Option Text)}

/-- What is found at a place, with all that is remembered of it. -/
theorem Takes.here (h : p.Takes b [] v r gs) (ht : t = v) (hn : p.groupCount = n)
    (htexts : firstTexts n gs = texts) (start : Nat) :
    p.here b start (t ++ r).length (t ++ r) = some ⟨start, t, texts⟩ := by
  subst ht hn htexts
  rw [Pattern.here, h _ rfl]
  simp [firstTexts, Cursor.upTo, Cursor.group?, Span.text]

/-- What is found when a pattern takes a whole text. -/
theorem Takes.search (h : p.Takes none [] v [] gs) (ht : t = v) (hn : p.groupCount = n)
    (htexts : firstTexts n gs = texts) : p.search t = some ⟨0, t, texts⟩ := by
  have hhere := h.here ht hn htexts 0
  rw [List.append_nil] at hhere
  exact search_eq_of_here hhere

end ShaderLink.Pattern
