import ShaderLink.Proofs.Matching
import ShaderLink.Proofs.WholeWord
import ShaderLink.Text.Comment

/-!
# Reading comments

Reading a text from left to right, a comment begins with the first `//` or `/*` outside of comments
and ends before the next line end or behind the next `*/`; `scan length` keeps what is outside, and
`found` lists the comments.  Stripping is scanning twice, for line comments first and for block
comments then (`strip_eq_scan_scan`).
-/

namespace ShaderLink.Comment

open Pattern Cursor

/-! ## Reading comments -/

/-- The length up to the end of the first closing mark. -/
def toClose : Text → Option Nat
  | [] => none
  | c :: t => if ['*', '/'] <+: c :: t then some 2 else (toClose t).map (· + 1)

/-- The text from the next line end on. -/
def dropLine (t : Text) : Text := t.dropWhile (· != '\n')

/-- The length of the line comment with which a text begins, 0 if it does not. -/
def lineLength (t : Text) : Nat :=
  if ['/', '/'] <+: t then (t.takeWhile (· != '\n')).length else 0

/-- The length of the closed block comment with which a text begins, 0 if it does not. -/
def blockLength (t : Text) : Nat :=
  if ['/', '*'] <+: t then ((toClose (t.drop 2)).map (· + 2)).getD 0 else 0

/-- The length of the comment with which a text begins, 0 if it does not. -/
def length (t : Text) : Nat := if lineLength t = 0 then blockLength t else lineLength t

/-- What is outside of comments, given the length of a comment at its beginning; the first `skip`
characters belong to the last comment. -/
def scan (length : Text → Nat) : (skip : Nat) → Text → Text
  | _, [] => []
  | skip + 1, _ :: t => scan length skip t
  | 0, c :: t =>
    match length (c :: t) with
    | 0 => c :: scan length 0 t
    | n + 1 => scan length n t

/-- A comment, and what follows it. -/
structure Found where
  text : Text
  rest : Text
deriving DecidableEq

/-- The comments that are read one after the other. -/
def found : (skip : Nat) → Text → List Found
  | _, [] => []
  | skip + 1, _ :: t => found skip t
  | 0, c :: t =>
    match length (c :: t) with
    | 0 => found 0 t
    | n + 1 => ⟨(c :: t).take (n + 1), t.drop n⟩ :: found n t

variable {c : Char} {t u v r y : Text} {n : Nat} {len : Text → Nat}

/-! ## Closing marks -/

theorem toClose_closing (h : ['*', '/'] <+: c :: t) : toClose (c :: t) = some 2 := if_pos h

theorem toClose_cons (h : ¬ ['*', '/'] <+: c :: t) :
    toClose (c :: t) = (toClose t).map (· + 1) := if_neg h

theorem toClose_cons_eq_some (h : ¬ ['*', '/'] <+: c :: t) :
    toClose (c :: t) = some (n + 1) ↔ toClose t = some n := by
  simp [toClose_cons h]

/-- The first closing mark lies within the text and not before its beginning. -/
theorem toClose_bounds (h : toClose t = some n) : 2 ≤ n ∧ n ≤ t.length := by
  induction t generalizing n with
  | nil => cases h
  | cons c t ih =>
    by_cases hp : ['*', '/'] <+: c :: t
    · rw [toClose_closing hp] at h
      cases h
      exact ⟨le_rfl, hp.length_le⟩
    · obtain ⟨m, hm, rfl⟩ := Option.map_eq_some_iff.1 (toClose_cons hp ▸ h)
      have hle := ih hm
      exact ⟨Nat.le_succ_of_le hle.1, Nat.succ_le_succ hle.2⟩

/-! ## Scans -/

theorem scan_skip (len : Text → Nat) (n : Nat) (t : Text) :
    scan len n t = scan len 0 (t.drop n) := by
  induction t generalizing n with
  | nil => cases n <;> rfl
  | cons c t ih =>
    cases n with
    | zero => rfl
    | succ n => exact ih n

theorem scan_cons (h : len (c :: t) = 0) : scan len 0 (c :: t) = c :: scan len 0 t := by
  rw [scan, h]

theorem scan_of_ne_zero (h : len t ≠ 0) : scan len 0 t = scan len 0 (t.drop (len t)) := by
  cases t with
  | nil => rw [List.drop_nil]
  | cons c t =>
    obtain ⟨n, hn⟩ := Nat.exists_eq_succ_of_ne_zero h
    rw [scan, hn]
    exact scan_skip len n t

theorem found_skip (n : Nat) (t : Text) : found n t = found 0 (t.drop n) := by
  induction t generalizing n with
  | nil => cases n <;> rfl
  | cons c t ih =>
    cases n with
    | zero => rfl
    | succ n => exact ih n

theorem found_cons (h : length (c :: t) = 0) : found 0 (c :: t) = found 0 t := by
  rw [found, h]

theorem found_of_ne_zero (h : length t ≠ 0) (ht : t ≠ []) :
    found 0 t = ⟨t.take (length t), t.drop (length t)⟩ :: found 0 (t.drop (length t)) := by
  obtain ⟨c, t, rfl⟩ := List.exists_cons_of_ne_nil ht
  obtain ⟨n, hn⟩ := Nat.exists_eq_succ_of_ne_zero h
  rw [found, hn]
  simp only [found_skip n t, List.drop_succ_cons]

/-! ## Stripping is scanning twice -/

/-- The pattern finds a text of the given length here, and nothing where that is 0. -/
structure Measures (p : Pattern) (len : Text → Nat) : Prop where
  none : ∀ {t}, len t = 0 → ∀ before start, p.here before start t.length t = none
  some : ∀ {t}, len t ≠ 0 → ∀ before start, ∃ m, p.here before start t.length t = some m ∧
    m.text.length = len t

/-- What is kept of a piece when matches are deleted. -/
def remains : Piece → Text
  | .kept c => [c]
  | .found _ => []

theorem flatMap_piecesFrom {p : Pattern} (h : Measures p len) (hnil : len [] = 0)
    (before : Option Char) (skip start : Nat) (t : Text) :
    (p.piecesFrom before skip start t.length t).flatMap remains = scan len skip t := by
  induction t generalizing before skip start with
  | nil =>
    have hhere : p.here before start 0 [] = none := h.none hnil before start
    cases skip <;> simp [piecesFrom, hhere, scan]
  | cons c t ih =>
    cases skip with
    | succ skip => exact ih (some c) skip (start + 1)
    | zero =>
      by_cases hlen : len (c :: t) = 0
      · rw [piecesFrom, h.none hlen, scan_cons hlen]
        exact congrArg (c :: ·) (ih (some c) 0 (start + 1))
      · obtain ⟨m, hm, hmlen⟩ := h.some hlen before start
        obtain ⟨n, hn⟩ := Nat.exists_eq_succ_of_ne_zero hlen
        simp only [piecesFrom, hm, hmlen, hn, scan]
        exact ih (some c) n (start + 1)

theorem erase_eq_scan {p : Pattern} (h : Measures p len) (hnil : len [] = 0) (t : Text) :
    p.erase t = scan len 0 t :=
  flatMap_piecesFrom h hnil none 0 0 t

theorem takeWhile_ne_newline (t : Text) :
    t.takeWhile (fun c => !isAmong c "\n".toList) = t.takeWhile (· != '\n') := by
  refine congrArg (t.takeWhile ·) (funext fun c => ?_)
  show (!((c == '\n') || false)) = (c != '\n')
  rw [Bool.or_false]
  rfl

/-- Behind the rest of a line the line ends. -/
theorem atLineEnd_after (k : Cursor) :
    (k.after (k.rest.takeWhile (· != '\n'))).atLineEnd = true := by
  have hrest : (k.after (k.rest.takeWhile (· != '\n'))).rest = dropLine k.rest :=
    rest_after_of_eq (List.takeWhile_append_dropWhile).symm
  have hhead := List.head?_dropWhile_not (· != '\n') k.rest
  unfold atLineEnd
  rw [hrest]
  cases hd : dropLine k.rest with
  | nil => rfl
  | cons c t =>
    rw [show k.rest.dropWhile (· != '\n') = c :: t from hd] at hhead
    simpa using hhead

theorem run_exactly_of_eq {w : Text} {k : Cursor} (h : k.rest = w ++ t)
    (done : Cursor → Option Cursor) : (exactly w).run k done = done (k.after w) := by
  obtain ⟨b, rest, n, gs⟩ := k
  obtain rfl : rest = w ++ t := h
  rw [Text.run_exactly_append]
  simp [Cursor.after]

theorem run_line (k : Cursor) : line.run k some =
    if ['/', '/'] <+: k.rest then some (k.after (k.rest.takeWhile (· != '\n'))) else none := by
  show (exactly ['/', '/']).run k (fun k₁ =>
    (chars _).run k₁ fun k₂ => if k₂.atLineEnd then some k₂ else none) = _
  by_cases h : ['/', '/'] <+: k.rest
  · rw [if_pos h]
    obtain ⟨r, hr⟩ := h
    have hrest : (k.after ['/', '/']).rest = r := rest_after_of_eq hr.symm
    have hline : k.rest.takeWhile (· != '\n') = ['/', '/'] ++ r.takeWhile (· != '\n') := by
      rw [← hr]
      rfl
    have hend := atLineEnd_after k
    rw [hline] at hend
    rw [run_exactly_of_eq hr.symm, run_chars_eq]
    · simp only [takeWhile_ne_newline, after_after, hrest, hline, hend, if_true]
    · simp only [takeWhile_ne_newline, after_after, hrest, hend, if_true, Option.isSome_some,
        implies_true]
  · rw [if_neg h, Text.run_exactly_of_not_prefix h]

/-- Any number of characters up to the first closing mark. -/
theorem rounds_toClose (fuel : Nat) (k : Cursor) (hk : k.Counts) (hfuel : fuel = k.left) :
    rounds anything.run false fuel k (fun k' => (exactly ['*', '/']).run k' some) =
      (toClose k.rest).map fun n => k.after (k.rest.take n) := by
  induction fuel generalizing k with
  | zero =>
    have hrest : k.rest = [] := List.length_eq_zero_iff.1 (by rw [← hk, ← hfuel])
    rw [rounds, Text.run_exactly_of_not_prefix (by simp [hrest]), hrest]
    rfl
  | succ fuel ih =>
    cases hrest : k.rest with
    | nil =>
      rw [hk, hrest] at hfuel
      cases hfuel
    | cons c t =>
      by_cases h : ['*', '/'] <+: c :: t
      · obtain ⟨r, hr⟩ := h
        have hdone := run_exactly_of_eq (hrest.trans hr.symm) some
        simp only [rounds, hdone, ← hr]
        rfl
      · have hdone : (exactly ['*', '/']).run k some = none :=
          Text.run_exactly_of_not_prefix (hrest ▸ h) some
        have hnext : k.next c t = k.after [c] := next_eq_after hrest
        have hleft : (k.next c t).left < k.left := by
          show k.left - 1 < k.left
          omega
        have hstep := ih (k.next c t) (hnext ▸ hk.after [c]) (by rw [next]; simp only; omega)
        have hmore : anything.run k (fun k' => if k'.left < k.left then
            rounds anything.run false fuel k' (fun k' => (exactly ['*', '/']).run k' some)
            else none) =
            rounds anything.run false fuel (k.next c t)
              (fun k' => (exactly ['*', '/']).run k' some) := by
          show (match k.rest with
            | [] => none
            | d :: r => if true then _ else none) = _
          rw [hrest]
          exact if_pos hleft
        simp only [rounds, hdone, hmore, hstep, toClose, if_neg h, Option.map_map]
        refine congrArg (Option.map · (toClose t)) (funext fun n => ?_)
        simp [hnext, after_after, hrest]

theorem run_block (k : Cursor) (hk : k.Counts) : block.run k some =
    if ['/', '*'] <+: k.rest then
      (toClose (k.rest.drop 2)).map fun n => k.after (k.rest.take (n + 2)) else none := by
  show (exactly ['/', '*']).run k (fun k₁ =>
    rounds anything.run false k₁.left k₁ fun k₂ => (exactly ['*', '/']).run k₂ some) = _
  by_cases h : ['/', '*'] <+: k.rest
  · rw [if_pos h]
    obtain ⟨r, hr⟩ := h
    have hrest : (k.after ['/', '*']).rest = r := rest_after_of_eq hr.symm
    rw [run_exactly_of_eq hr.symm, rounds_toClose _ _ (hk.after _) rfl, hrest, ← hr]
    refine congrArg (Option.map · (toClose r)) (funext fun n => ?_)
    rw [after_after]
    rfl
  · rw [if_neg h, Text.run_exactly_of_not_prefix h]

/-- A pattern measures what its match, taken by itself, walks past. -/
theorem measures_of_run {p : Pattern} (h : ∀ k : Cursor, k.Counts → p.run k some =
    if len k.rest = 0 then none else some (k.after (k.rest.take (len k.rest))))
    (hle : ∀ t, len t ≤ t.length) : Measures p len where
  none {t} ht before start := by
    have hrun := h ⟨before, t, t.length, []⟩ rfl
    rw [here, hrun, if_pos ht]
    rfl
  some {t} ht before start := by
    have hrun := h ⟨before, t, t.length, []⟩ rfl
    rw [here, hrun, if_neg ht]
    refine ⟨_, rfl, ?_⟩
    show (t.take (t.length - (t.length - (t.take (len t)).length))).length = len t
    have := hle t
    simp only [List.length_take]
    omega

theorem measures_line : Measures line lineLength := by
  refine measures_of_run (fun k _ => ?_) fun t => ?_
  · rw [run_line]
    by_cases h : ['/', '/'] <+: k.rest
    · have hlen : lineLength k.rest = (k.rest.takeWhile (· != '\n')).length := if_pos h
      have hpos : lineLength k.rest ≠ 0 := by
        obtain ⟨r, hr⟩ := h
        rw [hlen, ← hr]
        exact Nat.succ_ne_zero _
      rw [if_pos h, if_neg hpos, hlen, ← List.prefix_iff_eq_take.1 (List.takeWhile_prefix _)]
    · rw [if_neg h, lineLength, if_neg h, if_pos rfl]
  · unfold lineLength
    split
    · exact (List.takeWhile_prefix _).length_le
    · exact Nat.zero_le _

theorem measures_block : Measures block blockLength := by
  refine measures_of_run (fun k hk => ?_) fun t => ?_
  · rw [run_block k hk]
    by_cases h : ['/', '*'] <+: k.rest
    · rw [if_pos h, blockLength, if_pos h]
      cases toClose (k.rest.drop 2) <;> rfl
    · rw [if_neg h, blockLength, if_neg h, if_pos rfl]
  · unfold blockLength
    split
    case isTrue h =>
      have hlen := h.length_le
      cases hclose : toClose (t.drop 2) with
      | none => exact Nat.zero_le _
      | some n =>
        have hn := (toClose_bounds hclose).2
        rw [List.length_drop] at hn
        show n + 2 ≤ t.length
        have : 2 ≤ t.length := hlen
        omega
    case isFalse => exact Nat.zero_le _

/-- Stripping takes out line comments wherever they seem to be, and block comments of what is
left. -/
theorem strip_eq_scan_scan (t : Text) :
    strip t = scan blockLength 0 (scan lineLength 0 t) := by
  rw [strip, erase_eq_scan measures_line rfl, erase_eq_scan measures_block rfl]

end ShaderLink.Comment
