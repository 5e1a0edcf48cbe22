/-!
# Text

Source text, and every name in it, is a list of code points.  This file holds the cutting, joining
and replacing that needs no knowledge of what the characters are, and the search in a table of
ranges that the character classes share.
-/

namespace ShaderLink

/-- Source text, or a name in it. -/
abbrev Text := List Char

namespace Text

/-! ## Cutting and joining -/

/-- Cuts at every character of the class; the cutting characters are dropped. -/
def splitWhere (cut : Char → Bool) : Text → List Text
  | [] => [[]]
  | c :: t =>
    match splitWhere cut t with
    | [] => [[c]]
    | p :: ps => if cut c then [] :: p :: ps else (c :: p) :: ps

/-- Cuts at every occurrence of one character. -/
def split (sep : Char) : Text → List Text := splitWhere (· == sep)

/-- Joins parts with a separator between neighbours. -/
def join (sep : Text) (parts : List Text) : Text := sep.intercalate parts

theorem splitWhere_ne_nil (cut : Char → Bool) (t : Text) : splitWhere cut t ≠ [] := by
  cases t with
  | nil => simp [splitWhere]
  | cons c t => rw [splitWhere]; split <;> (try split) <;> simp

/-- Cutting goes on behind each character of the class. -/
theorem splitWhere_append_cons (cut : Char → Bool) {c : Char} (hc : cut c = true) (t u : Text) :
    splitWhere cut (t ++ c :: u) = splitWhere cut t ++ splitWhere cut u := by
  induction t with
  | nil =>
    obtain ⟨p, ps, hp⟩ := List.exists_cons_of_ne_nil (splitWhere_ne_nil cut u)
    simp [splitWhere, hp, hc]
  | cons d t ih =>
    obtain ⟨p, ps, hp⟩ := List.exists_cons_of_ne_nil (splitWhere_ne_nil cut t)
    by_cases hd : cut d = true <;> simp [splitWhere, ih, hp, hd]

/-- A text is cut at the last occurrence of a character in one way only. -/
theorem append_cons_inj {c : Char} {p q n n' : Text} (hn : c ∉ n) (hn' : c ∉ n')
    (h : p ++ c :: n = q ++ c :: n') : p = q ∧ n = n' := by
  have hnil : ∀ {n n' u : Text}, c ∉ n → c :: n = u ++ c :: n' → u = [] := by
    intro n n' u hn h
    cases u with
    | nil => rfl
    | cons d u =>
      have htail : n = u ++ c :: n' := (List.cons.inj h).2
      exact absurd (htail ▸ List.mem_append_right u List.mem_cons_self) hn
  rcases List.append_eq_append_iff.1 h with ⟨u, rfl, hu⟩ | ⟨u, rfl, hu⟩
  · obtain rfl := hnil hn hu
    exact ⟨(List.append_nil p).symm, (List.cons.inj hu).2⟩
  · obtain rfl := hnil hn' hu
    exact ⟨List.append_nil q, (List.cons.inj hu).2.symm⟩

theorem join_cons_append (sep a : Text) (as : List Text) (t : Text) :
    join sep (a :: as) ++ t =
      a ++ (if as = [] then t else sep ++ (join sep as ++ t)) := by
  cases as <;> simp [join, List.intercalate]

theorem join_cons (sep a : Text) (as : List Text) :
    join sep (a :: as) = a ++ (if as = [] then [] else sep ++ join sep as) := by
  cases as <;> simp [join, List.intercalate]

theorem forall_mem_join {P : Char → Prop} {sep : Text} {ts : List Text} (hsep : ∀ c ∈ sep, P c)
    (hts : ∀ t ∈ ts, ∀ c ∈ t, P c) : ∀ c ∈ join sep ts, P c := by
  induction ts with
  | nil => exact fun c hc => nomatch hc
  | cons t ts ih =>
    rw [List.forall_mem_cons] at hts
    intro c hc
    rw [join_cons, List.mem_append] at hc
    rcases hc with hc | hc
    · exact hts.1 c hc
    · split at hc
      · cases hc
      · rw [List.mem_append] at hc
        exact hc.elim (hsep c) (ih hts.2 c)

theorem split_of_not_mem {sep : Char} {w : Text} (hw : sep ∉ w) : w.split sep = [w] := by
  induction w with
  | nil => rfl
  | cons c w ih =>
    rw [List.mem_cons, not_or] at hw
    have hrest : splitWhere (· == sep) w = [w] := ih hw.2
    have hc : (c == sep) = false := by simpa using Ne.symm hw.1
    simp [split, splitWhere, hrest, hc]

theorem split_append {sep : Char} {w : Text} (hw : sep ∉ w) (t : Text) :
    (w ++ sep :: t).split sep = w :: t.split sep := by
  have hcut := splitWhere_append_cons (· == sep) (beq_self_eq_true sep) w t
  exact hcut.trans (congrArg (· ++ t.split sep) (split_of_not_mem hw))

/-- Joined parts are cut at the separators again. -/
theorem split_join {sep : Char} {ws : List Text} (hne : ws ≠ []) (h : ∀ w ∈ ws, sep ∉ w) :
    (join [sep] ws).split sep = ws := by
  induction ws with
  | nil => exact absurd rfl hne
  | cons w ws ih =>
    obtain ⟨hw, hws⟩ := List.forall_mem_cons.1 h
    rw [join_cons]
    split
    · rename_i hnil
      rw [hnil, List.append_nil, split_of_not_mem hw]
    · rename_i hmore
      rw [List.singleton_append, split_append hw, ih hmore hws]

/-- One text occurs in another. -/
def holds (part : Text) : Text → Bool
  | [] => part.isEmpty
  | c :: t => part.isPrefixOf (c :: t) || holds part t

/-! ## Replacing -/

/-- Replaces the first occurrence of `old`. -/
def replaceFirst (old new : Text) : Text → Text
  | [] => if old.isEmpty then new else []
  | c :: t =>
    if old.isPrefixOf (c :: t) then new ++ (c :: t).drop old.length
    else c :: replaceFirst old new t

/-- The offset that a number stands for; a negative number counts from the end of the text, and
stops at the beginning. -/
def offset (t : Text) (i : Int) : Nat := (if i < 0 then i + t.length else i).toNat

@[simp] theorem offset_natCast (t : Text) (n : Nat) : t.offset n = n := by
  have h : ¬ (n : Int) < 0 := by omega
  simp [offset, h]

/-- Overwrites the span from `start` to `stop` with blanks, one for each number of the span. -/
def blankOut (t : Text) (start stop : Int) : Text :=
  t.take (t.offset start) ++ List.replicate (stop - start).toNat ' ' ++ t.drop (t.offset stop)

theorem blankOut_natCast (t : Text) (start stop : Nat) :
    t.blankOut start stop = t.take start ++ List.replicate (stop - start) ' ' ++ t.drop stop := by
  simp [blankOut]

theorem length_blankOut {t : Text} {start stop : Nat} (h : start ≤ stop) (h' : stop ≤ t.length) :
    (t.blankOut start stop).length = t.length := by
  simp [blankOut]; omega

/-! ## Tables of ranges -/

/-- Looks a number up in a table of ascending bounds at which membership flips. -/
def flips (n : Nat) : Bool → List Nat → Bool
  | inside, [] => inside
  | inside, b :: bs => if n < b then inside else flips n (!inside) bs

/-- The character lies in one of the ranges `[b₀, b₁), [b₂, b₃), …`. -/
def inRanges (bounds : List Nat) (c : Char) : Bool := flips c.toNat false bounds

end Text

end ShaderLink
