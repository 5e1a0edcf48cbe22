import ShaderLink.Proofs.Findings
import ShaderLink.Proofs.Renames

/-!
# Reading a text line by line

Some forms take a line of a text as a whole, or nothing of it.  The matches found one after the
other are then those of the lines that are taken, with offsets that follow from the lengths of the
lines (`ReadsLines.sequence_eq`).  Blanking them blanks these lines (`blankAll_lineMatches`), and
what is read off them is read line by line (`exists_mapM_lineMatches`).
-/

namespace ShaderLink

open Text Pattern

variable {ι α : Type} {form : Pattern} {text : ι → Text} {groups : ι → Option (List (Option Text))}
  {ls : List ι} {l : ι} {r s u : Text} {fuel offset : Nat} {m : Match}

/-! ## Searches that have begun -/

namespace Pattern

/-- The matches found one after the other, when the first search has passed over `u`. -/
def sequenceBehind (form : Pattern) (fuel offset : Nat) (u t : Text) : List Match :=
  match form.searchFrom u.getLast? u.length t.length t with
  | none => []
  | some m =>
    m.shift offset ::
      form.sequenceFrom fuel (offset + max m.stop 1) ((u ++ t).drop (max m.stop 1))

theorem sequenceFrom_succ (form : Pattern) (fuel offset : Nat) (t : Text) :
    form.sequenceFrom (fuel + 1) offset t = form.sequenceBehind fuel offset [] t := rfl

/-- Where nothing is found, the search goes on behind. -/
theorem sequenceBehind_append (h : ∀ z, z <:+ s → z ≠ [] → ∀ b start,
    form.here b start (z ++ r).length (z ++ r) = none) :
    form.sequenceBehind fuel offset u (s ++ r) = form.sequenceBehind fuel offset (u ++ s) r := by
  unfold sequenceBehind
  rw [searchFrom_append fun y z hs hz => h z ⟨y, hs.symm⟩ hz _ _, List.getLast?_append,
    List.length_append, List.append_assoc]

/-- A match uses up its text, and the next search begins behind it. -/
theorem sequenceBehind_of_here
    (h : form.here u.getLast? u.length (s ++ r).length (s ++ r) = some m)
    (hstart : m.start = u.length) (htext : m.text = s) (hs : s ≠ []) :
    form.sequenceBehind fuel offset u (s ++ r) =
      m.shift offset :: form.sequenceFrom fuel (offset + u.length + s.length) r := by
  have hpos : 0 < s.length := List.length_pos_iff.2 hs
  have hstop : m.stop = (u ++ s).length := by
    rw [Match.stop, hstart, htext, List.length_append]
  have hmax : max m.stop 1 = (u ++ s).length := by
    rw [hstop, List.length_append]
    omega
  unfold sequenceBehind
  rw [searchFrom_of_here h]
  simp only
  rw [hmax, ← List.append_assoc, List.drop_left, List.length_append, Nat.add_assoc]

theorem sequenceFrom_nil (h : form.here none 0 0 [] = none) :
    form.sequenceFrom fuel offset [] = [] := by
  cases fuel with
  | zero => rfl
  | succ fuel =>
    have hsearch : form.search [] = none := h
    rw [sequenceFrom, hsearch]

end Pattern

/-! ## Lines -/

/-- What stands behind a line: the other lines, each behind a line end. -/
def behindLine (text : ι → Text) (ls : List ι) : Text := ls.flatMap fun l => '\n' :: text l

/-- Some lines, one below the other. -/
def lined (text : ι → Text) (ls : List ι) : Text := Text.join ['\n'] (ls.map text)

theorem behindLine_cons (text : ι → Text) (l : ι) (ls : List ι) :
    behindLine text (l :: ls) = '\n' :: (text l ++ behindLine text ls) := rfl

theorem lined_cons (text : ι → Text) (l : ι) (ls : List ι) :
    lined text (l :: ls) = text l ++ behindLine text ls := by
  induction ls generalizing l with
  | nil => simp [lined, behindLine, Text.join, List.intercalate]
  | cons l' ls ih =>
    rw [lined, List.map_cons, join_cons, if_neg (by simp), behindLine_cons, ← ih]
    rfl

theorem endsLine_behindLine (text : ι → Text) (ls : List ι) : EndsLine (behindLine text ls) := by
  cases ls with
  | nil => exact Or.inl rfl
  | cons l ls => exact Or.inr ⟨_, behindLine_cons text l ls⟩

/-- The form takes some of the lines as a whole, with what is remembered of them, and finds nothing
in the others, nor where a line ends. -/
structure ReadsLines (form : Pattern) (text : ι → Text)
    (groups : ι → Option (List (Option Text))) (ls : List ι) : Prop where
  ends : ∀ {b start r}, EndsLine r → form.here b start r.length r = none
  takes : ∀ {l gs b start r}, l ∈ ls → groups l = some gs → BeginsLine b → EndsLine r →
    form.here b start (text l ++ r).length (text l ++ r) = some ⟨start, text l, gs⟩
  passes : ∀ {l z b start r}, l ∈ ls → groups l = none → z <:+ text l → z ≠ [] → EndsLine r →
    form.here b start (z ++ r).length (z ++ r) = none

/-- The matches of the lines that are taken, where the first line begins at an offset. -/
def lineMatches (text : ι → Text) (groups : ι → Option (List (Option Text))) :
    Nat → List ι → List Match
  | _, [] => []
  | offset, l :: ls =>
    ((groups l).map fun gs => ⟨offset, text l, gs⟩).toList ++
      lineMatches text groups (offset + (text l).length + 1) ls

theorem lineMatches_cons_none (h : groups l = none) :
    lineMatches text groups offset (l :: ls) =
      lineMatches text groups (offset + (text l).length + 1) ls := by
  simp [lineMatches, h]

theorem lineMatches_cons_some {gs : List (Option Text)} (h : groups l = some gs) :
    lineMatches text groups offset (l :: ls) =
      ⟨offset, text l, gs⟩ :: lineMatches text groups (offset + (text l).length + 1) ls := by
  simp [lineMatches, h]

namespace ReadsLines

theorem tail (h : ReadsLines form text groups (l :: ls)) : ReadsLines form text groups ls where
  ends := h.ends
  takes hl := h.takes (List.mem_cons_of_mem _ hl)
  passes hl := h.passes (List.mem_cons_of_mem _ hl)

theorem text_ne_nil (h : ReadsLines form text groups ls) (hl : l ∈ ls)
    {gs : List (Option Text)} (hgroups : groups l = some gs) : text l ≠ [] := by
  intro hnil
  have htakes : form.here none 0 (text l ++ []).length (text l ++ []) = some ⟨0, text l, gs⟩ :=
    h.takes hl hgroups (Or.inl rfl) (Or.inl rfl)
  rw [hnil, List.nil_append, h.ends (Or.inl rfl)] at htakes
  cases htakes

/-- A line is taken or passed over, and the search goes on behind it. -/
theorem sequenceBehind_line (h : ReadsLines form text groups (l :: ls))
    (hrest : ∀ fuel offset u, (behindLine text ls).length ≤ fuel →
      form.sequenceBehind fuel offset u (behindLine text ls) =
        lineMatches text groups (offset + u.length + 1) ls)
    (hu : BeginsLine u.getLast?) (hfuel : (text l ++ behindLine text ls).length ≤ fuel) :
    form.sequenceBehind fuel offset u (text l ++ behindLine text ls) =
      lineMatches text groups (offset + u.length) (l :: ls) := by
  have hends := endsLine_behindLine text ls
  rw [List.length_append] at hfuel
  cases hgroups : groups l with
  | none =>
    rw [lineMatches_cons_none hgroups, sequenceBehind_append fun z hz hne b start =>
      h.passes List.mem_cons_self hgroups hz hne hends, hrest _ _ _ (by omega), List.length_append]
    congr 1
    omega
  | some gs =>
    have hne := h.text_ne_nil List.mem_cons_self hgroups
    have hpos : 0 < (text l).length := List.length_pos_iff.2 hne
    -- the match costs one round, and has used up at least one character
    obtain ⟨fuel, rfl⟩ : ∃ f, fuel = f + 1 := ⟨fuel - 1, by omega⟩
    rw [lineMatches_cons_some hgroups, sequenceBehind_of_here
      (h.takes List.mem_cons_self hgroups hu hends) rfl rfl hne, sequenceFrom_succ,
      hrest _ _ _ (by omega)]
    simp [Match.shift, Nat.add_comm]

theorem sequenceBehind_eq (h : ReadsLines form text groups ls)
    (hfuel : (behindLine text ls).length ≤ fuel) :
    form.sequenceBehind fuel offset u (behindLine text ls) =
      lineMatches text groups (offset + u.length + 1) ls := by
  induction ls generalizing fuel offset u with
  | nil =>
    have hnone : form.searchFrom u.getLast? u.length 0 [] = none := h.ends (Or.inl rfl)
    unfold sequenceBehind behindLine
    rw [List.flatMap_nil, List.length_nil, hnone]
    rfl
  | cons l ls ih =>
    rw [behindLine_cons, List.length_cons] at hfuel
    have hnewline : ∀ z, z <:+ ['\n'] → z ≠ [] → ∀ b start,
        form.here b start (z ++ (text l ++ behindLine text ls)).length
          (z ++ (text l ++ behindLine text ls)) = none := by
      intro z hz hne b start
      rcases List.suffix_cons_iff.1 hz with rfl | hz
      · exact h.ends (Or.inr ⟨_, rfl⟩)
      · exact absurd (List.suffix_nil.1 hz) hne
    have hline : BeginsLine (u ++ ['\n']).getLast? := Or.inr (by simp)
    rw [behindLine_cons, ← List.singleton_append, sequenceBehind_append hnewline,
      h.sequenceBehind_line (fun _ _ _ => ih h.tail) hline (by omega)]
    simp [Nat.add_assoc]

/-- The matches found in the lines are those of the lines that are taken. -/
theorem sequence_eq (h : ReadsLines form text groups ls) :
    form.sequence (lined text ls) = lineMatches text groups 0 ls := by
  cases ls with
  | nil => exact sequenceFrom_nil (h.ends (Or.inl rfl))
  | cons l ls =>
    rw [Pattern.sequence, lined_cons, sequenceFrom_succ]
    exact h.sequenceBehind_line (u := []) (fun _ _ _ => h.tail.sequenceBehind_eq) (Or.inl rfl)
      le_rfl

end ReadsLines

/-! ## Taking lines out -/

theorem blankOut_append (u s r : Text) : (u ++ (s ++ r)).blankOut u.length ↑(u.length + s.length) =
    u ++ (List.replicate s.length ' ' ++ r) := by
  rw [blankOut_natCast, List.take_left, ← List.drop_drop, List.drop_left, List.drop_left,
    Nat.add_sub_cancel_left, List.append_assoc]

/-- Blanking the matches blanks the lines that are taken. -/
theorem blankAll_lineMatches {hide : ι → ι}
    (htaken : ∀ l, groups l ≠ none → text (hide l) = List.replicate (text l).length ' ')
    (hleft : ∀ l, groups l = none → hide l = l) (u : Text) (ls : List ι) :
    blankAll (lineMatches text groups u.length ls) (u ++ lined text ls) =
      u ++ lined text (ls.map hide) := by
  induction ls generalizing u with
  | nil => rfl
  | cons l ls ih =>
    have hline : blankAll (lineMatches text groups u.length (l :: ls)) (u ++ lined text (l :: ls)) =
        blankAll (lineMatches text groups (u.length + (text (hide l)).length + 1) ls)
          (u ++ (text (hide l) ++ behindLine text ls)) := by
      rw [lined_cons]
      cases hgroups : groups l with
      | none => rw [lineMatches_cons_none hgroups, hleft l hgroups]
      | some gs =>
        have htext := htaken l (hgroups ▸ Option.some_ne_none gs)
        rw [lineMatches_cons_some hgroups, htext, List.length_replicate, ← blankOut_append]
        rfl
    rw [hline, List.map_cons, lined_cons]
    -- the other lines begin behind the line end
    cases ls with
    | nil => rfl
    | cons l' ls =>
      have hrest := ih (u ++ text (hide l) ++ ['\n'])
      rw [List.map_cons, behindLine_cons, ← lined_cons, behindLine_cons, ← lined_cons]
      simpa [Nat.add_assoc] using hrest

/-- What is read off the matches is what is read off the lines, one after the other. -/
theorem exists_mapM_lineMatches {M : Type → Type} [Monad M] [LawfulMonad M]
    {read : Match → M (List α)} {values : ι → List α}
    (htaken : ∀ l ∈ ls, ∀ gs start, groups l = some gs →
      read ⟨start, text l, gs⟩ = pure (values l))
    (hleft : ∀ l ∈ ls, groups l = none → values l = []) (offset : Nat) :
    ∃ xss, (lineMatches text groups offset ls).mapM read = pure xss ∧
      xss.flatten = ls.flatMap values := by
  induction ls generalizing offset with
  | nil => exact ⟨[], rfl, rfl⟩
  | cons l ls ih =>
    obtain ⟨htaken, htakens⟩ := List.forall_mem_cons.1 htaken
    obtain ⟨hleft, hlefts⟩ := List.forall_mem_cons.1 hleft
    obtain ⟨xss, hxss, hvalues⟩ := ih htakens hlefts (offset + (text l).length + 1)
    cases hgroups : groups l with
    | none => exact ⟨xss, by rw [lineMatches_cons_none hgroups, hxss],
        by rw [List.flatMap_cons, hleft hgroups, hvalues, List.nil_append]⟩
    | some gs =>
      refine ⟨values l :: xss, ?_, by rw [List.flatten_cons, hvalues, List.flatMap_cons]⟩
      rw [lineMatches_cons_some hgroups, List.mapM_cons, htaken gs offset hgroups, hxss]
      simp

/-- Reading every match before it is blanked is reading all of them and then blanking them. -/
theorem Pass.mapM_clear {read : Match → Except Fault α} {ms : List Match} {xs : List α}
    (h : ms.mapM read = .ok xs) (code : Text) :
    (ms.mapM fun m => do
      let x ← ofExcept (read m)
      clear m.start m.stop
      return x) code = (.ok xs, blankAll ms code) := by
  induction ms generalizing code xs with
  | nil =>
    cases h
    rfl
  | cons m ms ih =>
    rw [List.mapM_cons] at h
    obtain ⟨x, hx, h⟩ := exists_of_bind_eq_ok h
    obtain ⟨xs, hxs, h⟩ := exists_of_bind_eq_ok h
    cases h
    have hfirst : (do let x ← ofExcept (read m); clear m.start m.stop; return x : Pass α) code =
        (.ok x, code.blankOut m.start m.stop) := by
      rw [hx]
      rfl
    rw [List.mapM_cons, bind_apply, hfirst]
    simp only
    rw [bind_apply, ih hxs]
    rfl

end ShaderLink
