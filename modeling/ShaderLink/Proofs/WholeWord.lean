import ShaderLink.Proofs.Segments

/-!
# Whole words and runs

The pieces into which a search for a whole word cuts a text, in terms of its runs
(`contents_pieces`).  From this it follows what replacing a word and looking for one do:
`replaceWord_eq`, `replaceFirstWords_eq`, `containsWord_iff`.
-/

namespace ShaderLink

open Text Pattern

/-- What a search for the word `w` finds in a run. -/
def Text.Run.contents (w : Text) : Run → List (Char ⊕ Text)
  | .word v => if v = w then [.inr w] else v.map .inl
  | .other c => [.inl c]

namespace Text

/-! ## Pieces -/

theorem flatMap_contents_occurrence (w : Text) (rs : List Run) :
    (segments (occurrence [.word w]) rs).flatMap contents = rs.flatMap (Run.contents w) := by
  induction rs with
  | nil =>
    rw [segments_nil]
    rfl
  | cons r rs ih =>
    by_cases hr : r = .word w
    · subst hr
      have htake : occurrence [.word w] ([.word w] ++ rs) = 1 :=
        occurrence_of_isPrefix (List.prefix_append _ rs)
      have hcut := segments_taken (List.cons_ne_nil (.word w) []) htake
      rw [List.singleton_append] at hcut
      rw [hcut, List.flatMap_cons, ih]
      simp [contents, Run.contents, flatten, Run.text]
    · have htake : occurrence [.word w] (r :: rs) = 0 :=
        occurrence_of_not_isPrefix fun h => hr (List.cons_prefix_cons.1 h).1.symm
      rw [segments_kept htake, List.flatMap_cons, ih, List.flatMap_cons]
      cases r with
      | other c => rfl
      | word v =>
        have hv : v ≠ w := fun hv => hr (congrArg Run.word hv)
        simp [contents, Run.contents, hv, Run.text]

variable {w : Text}

theorem contents_pieces (hw : IsIdentifier w) (t : Text) :
    ((wholeWord w).pieces t).map Piece.content = (runs t).flatMap (Run.contents w) := by
  have hopen : opensWord w = true := by simpa using hw.opensWord []
  have hruns : runs w = [.word w] := by simpa [runs] using runs_word hw opensWord_nil
  have htakes := takesRuns_wholeWord hopen hw.closesWord
  rw [contents_pieces_of_takesRuns htakes, hruns, flatMap_contents_occurrence]

/-! ## Replacing words -/

/-- Takes one word for another. -/
def exchange (old new w : Text) : Text := if w = old then new else w

/-- Takes the first `count` words that are `old` for `new`. -/
def exchangeFirst (old new : Text) : (count : Nat) → List Run → List Run
  | 0, rs => rs
  | _, [] => []
  | count + 1, .other c :: rs => .other c :: exchangeFirst old new (count + 1) rs
  | count + 1, .word v :: rs =>
    if v = old then .word new :: exchangeFirst old new count rs
    else .word v :: exchangeFirst old new (count + 1) rs

/-- Writes a text in the place of the first `count` matches. -/
def putFirst (new : Text) : (count : Nat) → List (Char ⊕ Text) → Text
  | _, [] => []
  | count, .inl c :: cs => c :: putFirst new count cs
  | 0, .inr u :: cs => u ++ putFirst new 0 cs
  | count + 1, .inr _ :: cs => new ++ putFirst new count cs

theorem substituteFirst_eq_putFirst (new : Text) (count : Nat) (ps : List Piece) :
    substituteFirst (fun _ => new) count ps = putFirst new count (ps.map Piece.content) := by
  induction ps generalizing count with
  | nil => simp [substituteFirst, putFirst]
  | cons p ps ih =>
    cases p with
    | kept c => simp [substituteFirst, putFirst, Piece.content, ih]
    | found m => cases count <;> simp [substituteFirst, putFirst, Piece.content, ih]

theorem putFirst_append (new : Text) (count : Nat) (v : Text) (cs : List (Char ⊕ Text)) :
    putFirst new count (v.map .inl ++ cs) = v ++ putFirst new count cs := by
  induction v with
  | nil => rfl
  | cons c v ih => simp [putFirst, ih]

theorem putFirst_contents (w new : Text) (count : Nat) (rs : List Run) :
    putFirst new count (rs.flatMap (Run.contents w)) = flatten (exchangeFirst w new count rs) := by
  induction rs generalizing count with
  | nil => cases count <;> rfl
  | cons r rs ih =>
    rw [List.flatMap_cons]
    cases r with
    | other c =>
      have hstep : putFirst new count (Run.contents w (.other c) ++ rs.flatMap (Run.contents w)) =
          c :: flatten (exchangeFirst w new count rs) := by
        rw [← ih]
        rfl
      rw [hstep]
      cases count <;> simp [exchangeFirst, Run.text]
    | word v =>
      by_cases hv : v = w
      · subst hv
        simp only [Run.contents, if_true, List.singleton_append]
        cases count with
        | zero => simp [putFirst, ih, exchangeFirst, Run.text]
        | succ count => simp [putFirst, ih, exchangeFirst, Run.text]
      · simp only [Run.contents, if_neg hv, putFirst_append, ih]
        cases count with
        | zero => simp [exchangeFirst, Run.text]
        | succ count => simp [exchangeFirst, hv, Run.text]

/-- The first occurrences of a word are replaced. -/
theorem replaceFirstWords_eq (hw : IsIdentifier w) (count : Nat) (t new : Text) :
    replaceFirstWords count t w new = flatten (exchangeFirst w new count (runs t)) := by
  rw [replaceFirstWords, substituteFirst_eq_putFirst, contents_pieces hw, putFirst_contents]

/-- All occurrences of a word are replaced. -/
theorem replaceWord_eq (hw : IsIdentifier w) (t new : Text) :
    t.replaceWord w new = flatten ((runs t).map (Run.map (exchange w new))) := by
  rw [replaceWord_eq_flatMap, contents_pieces hw, List.flatMap_assoc, flatten, List.flatMap_map]
  congr 1
  funext r
  cases r with
  | other c => rfl
  | word v =>
    by_cases hv : v = w
    · simp [Run.contents, hv, exchange, Run.text]
    · simp [Run.contents, hv, exchange, Run.text, List.flatMap_map]

/-! ## Looking for a word -/

theorem containsWord_iff (hw : IsIdentifier w) (t : Text) :
    t.containsWord w = true ↔ .word w ∈ runs t := by
  rw [containsWord, isSome_search_iff, contents_pieces hw]
  simp only [List.mem_flatMap]
  constructor
  · rintro ⟨u, r, hr, hu⟩
    cases r with
    | other c => simp [Run.contents] at hu
    | word v =>
      by_cases hv : v = w
      · exact hv ▸ hr
      · simp [Run.contents, hv] at hu
  · intro h
    exact ⟨w, .word w, h, by simp [Run.contents]⟩

end Text

end ShaderLink
