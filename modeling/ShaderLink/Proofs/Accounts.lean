import ShaderLink.Proofs.Forms
import ShaderLink.Proofs.Spans

/-!
# Nothing is lost, moved or doubled

Reading a module takes its statements out of the source and leaves blanks, so that everything keeps
its offset.  Each character of the source that is not blank is afterwards in one place: it is still
in the code, or it belongs to an import or an export, or exactly one declaration has it
(`Accounts`).  Each pass keeps to this, and `accounts_of_ofCode` says it of the outline.  The
statements are read in separate matches over a code that already has blanks in it, so a declaration
may well contain blanks where another statement was.
-/

namespace ShaderLink

/-- The character that a declaration has at an offset of the source. -/
def Declaration.at? (d : Declaration) (n : Nat) : Option Char :=
  if d.index ≤ n then d.definition[(n - d.index).toNat]? else none

/-- The offset lies in one of the matches. -/
def Covered (ms : List Match) (n : Nat) : Prop := ∃ m ∈ ms, m.start ≤ n ∧ n < m.stop

instance (ms : List Match) (n : Nat) : Decidable (Covered ms n) :=
  inferInstanceAs (Decidable (∃ m ∈ ms, m.start ≤ n ∧ n < m.stop))

/-- A character of the source is in exactly one place: in the code that is left, in a statement
that was taken out, or in one of the declarations. -/
def InOnePlace (statements : List Match) (code : Text) (ds : List Declaration) (n : Nat)
    (c : Char) : Prop :=
  (code[n]? = some c ∧ ¬ Covered statements n ∧ ds.countP (·.at? n = some c) = 0) ∨
  (code[n]? ≠ some c ∧ Covered statements n ∧ ds.countP (·.at? n = some c) = 0) ∨
  (code[n]? ≠ some c ∧ ¬ Covered statements n ∧ ds.countP (·.at? n = some c) = 1)

/-- The code that is left and the declarations have characters of the source, or spaces, at their
offsets, and every character that is not blank is in exactly one place. -/
structure Accounts (source : Text) (statements : List Match) (code : Text)
    (ds : List Declaration) : Prop where
  length_eq : code.length = source.length
  code_eq : ∀ (n : Nat) c, code[n]? = some c → source[n]? = some c ∨ c = ' '
  definition_eq : ∀ d ∈ ds, ∀ (i : Nat) c, d.definition[i]? = some c →
    ∃ n : Nat, d.index + i = n ∧ n < source.length ∧ (source[n]? = some c ∨ c = ' ')
  once : ∀ (n : Nat) c, source[n]? = some c → Text.isBlank c = false →
    InOnePlace statements code ds n c

/-- The statements that reading a module takes out besides declarations: the imports, and then the
exports in the code that is left. -/
def consumed (path code : Text) : List Match :=
  Statement.importForm.sequence code ++ Statement.exportForm.sequence (Pass.imports path code).2

/-- No export gives a new name. -/
def WithoutAliases (path code : Text) : Prop :=
  ∀ m ∈ Statement.exportForm.sequence (Pass.imports path code).2,
    ∀ entry ∈ Statement.entries (m.group 1), ∀ k ∈ Statement.exportEntry.search entry,
      k.group? 3 = none

instance (path code : Text) : Decidable (WithoutAliases path code) :=
  inferInstanceAs (Decidable (∀ m ∈ Statement.exportForm.sequence (Pass.imports path code).2,
    ∀ entry ∈ Statement.entries (m.group 1), ∀ k ∈ Statement.exportEntry.search entry,
      k.group? 3 = none))

variable {source code : Text} {statements : List Match} {ds : List Declaration}
  {d : Declaration} {start stop : Nat}

/-! ## Taking out a part -/

theorem not_blank_space {c : Char} (h : Text.isBlank c = false) : c ≠ ' ' := by
  rintro rfl
  cases h

/-- Nothing was taken out yet. -/
theorem accounts_source (source : Text) : Accounts source [] source [] where
  length_eq := rfl
  code_eq _ _ := Or.inl
  definition_eq := nofun
  once _ _ hc _ := Or.inl ⟨hc, nofun, rfl⟩

theorem covered_append {ms : List Match} {m : Match} {n : Nat} :
    Covered (ms ++ [m]) n ↔ Covered ms n ∨ m.start ≤ n ∧ n < m.stop := by
  simp [Covered, or_and_right, exists_or]

/-- A statement is taken out, while there are no declarations yet. -/
theorem Accounts.clear (h : Accounts source statements code []) {m : Match}
    (hm : m.stop ≤ code.length) :
    Accounts source (statements ++ [m]) (code.blankOut m.start m.stop) [] := by
  have hle : m.start ≤ m.stop := Nat.le_add_right _ _
  refine ⟨(Text.length_blankOut hle hm).trans h.length_eq, fun n c hc => ?_, nofun,
    fun n c hc hblank => ?_⟩
  · by_cases hn : m.start ≤ n ∧ n < m.stop
    · rw [Text.getElem?_blankOut_inside hn.2 hn.1 hm] at hc
      exact Or.inr (Option.some.inj hc).symm
    · rw [Text.getElem?_blankOut_outside (by omega) hle hm] at hc
      exact h.code_eq n c hc
  · by_cases hn : m.start ≤ n ∧ n < m.stop
    · refine Or.inr (Or.inl ⟨?_, covered_append.2 (Or.inr hn), rfl⟩)
      rw [Text.getElem?_blankOut_inside hn.2 hn.1 hm]
      exact fun hspace => not_blank_space hblank (Option.some.inj hspace).symm
    · unfold InOnePlace
      rw [Text.getElem?_blankOut_outside (by omega) hle hm, covered_append, or_iff_left hn]
      exact h.once n c hc hblank

/-- A declaration has what the code has in a span, without blanks at the end. -/
structure Declaration.TakesOut (d : Declaration) (code : Text) (start stop : Nat) : Prop where
  le : start ≤ stop
  stop_le : stop ≤ code.length
  index_eq : d.index = start
  definition_eq : ∀ (i : Nat) c, d.definition[i]? = some c →
    start + i < stop ∧ code[start + i]? = some c
  complete : ∀ (i : Nat) c, start + i < stop → code[start + i]? = some c → Text.isBlank c = false →
    d.definition[i]? = some c

theorem Declaration.TakesOut.at?_eq (h : d.TakesOut code start stop) (n : Nat) :
    d.at? n = if start ≤ n then d.definition[n - start]? else none := by
  unfold Declaration.at?
  rw [h.index_eq]
  by_cases hn : start ≤ n
  · have hsub : ((n : Int) - start).toNat = n - start := by omega
    rw [if_pos (Int.ofNat_le.2 hn), if_pos hn, hsub]
  · rw [if_neg (mt Int.ofNat_le.1 hn), if_neg hn]

/-- The characters of the declaration are those of the code in the span. -/
theorem Declaration.TakesOut.of_at? (h : d.TakesOut code start stop) {n : Nat} {c : Char}
    (hc : d.at? n = some c) : (start ≤ n ∧ n < stop) ∧ code[n]? = some c := by
  rw [h.at?_eq] at hc
  split at hc
  case isTrue hn =>
    obtain ⟨hlt, hcode⟩ := h.definition_eq _ c hc
    have hsum : start + (n - start) = n := by omega
    rw [hsum] at hlt hcode
    exact ⟨⟨hn, hlt⟩, hcode⟩
  case isFalse => cases hc

theorem Declaration.TakesOut.at?_of_getElem? (h : d.TakesOut code start stop) {n : Nat} {c : Char}
    (hn : start ≤ n ∧ n < stop) (hc : code[n]? = some c) (hblank : Text.isBlank c = false) :
    d.at? n = some c := by
  have hsum : start + (n - start) = n := by omega
  rw [h.at?_eq, if_pos hn.1]
  exact h.complete _ c (by omega) (hsum.symm ▸ hc) hblank

/-- A declaration is taken out. -/
theorem Accounts.takeOut (h : Accounts source statements code ds)
    (hd : d.TakesOut code start stop) :
    Accounts source statements (code.blankOut start stop) (ds ++ [d]) := by
  have hle := hd.le
  have hstop := hd.stop_le
  refine ⟨(Text.length_blankOut hle hstop).trans h.length_eq, fun n c hc => ?_,
    fun e he i c hc => ?_, fun n c hc hblank => ?_⟩
  · by_cases hn : start ≤ n ∧ n < stop
    · rw [Text.getElem?_blankOut_inside hn.2 hn.1 hstop] at hc
      exact Or.inr (Option.some.inj hc).symm
    · rw [Text.getElem?_blankOut_outside (by omega) hle hstop] at hc
      exact h.code_eq n c hc
  · rcases List.mem_append.1 he with he | he
    · exact h.definition_eq e he i c hc
    · obtain rfl := List.mem_singleton.1 he
      obtain ⟨hlt, hcode⟩ := hd.definition_eq i c hc
      refine ⟨start + i, ?_, ?_, h.code_eq _ c hcode⟩
      · rw [hd.index_eq, Int.natCast_add]
      · rw [← h.length_eq]
        omega
  · unfold InOnePlace
    rw [List.countP_append, List.countP_singleton]
    by_cases hn : start ≤ n ∧ n < stop
    · rw [Text.getElem?_blankOut_inside hn.2 hn.1 hstop]
      have hspace : some ' ' ≠ some c :=
        fun hspace => not_blank_space hblank (Option.some.inj hspace).symm
      rcases h.once n c hc hblank with ⟨hcode, hcovered, hcount⟩ | ⟨hcode, h'⟩ | ⟨hcode, h'⟩
      · -- the character changes its place from the code to the declaration
        have hat := hd.at?_of_getElem? hn hcode hblank
        exact Or.inr (Or.inr ⟨hspace, hcovered, by simp [hcount, hat]⟩)
      · have hat : d.at? n ≠ some c := fun hat => hcode (hd.of_at? hat).2
        exact Or.inr (Or.inl ⟨hspace, by simpa [hat] using h'⟩)
      · have hat : d.at? n ≠ some c := fun hat => hcode (hd.of_at? hat).2
        exact Or.inr (Or.inr ⟨hspace, by simpa [hat] using h'⟩)
    · have hat : d.at? n ≠ some c := fun hat => hn (hd.of_at? hat).1
      rw [Text.getElem?_blankOut_outside (by omega) hle hstop]
      simpa [hat, InOnePlace] using h.once n c hc hblank

end ShaderLink
