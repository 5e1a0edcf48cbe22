import ShaderLink.Proofs.Renames

/-!
# Replacing is a map over words

A text is words with other characters between them, and replacing a word by another one changes the
words of the text and nothing else (`runs_replaceWord`): what is written is a whole word again, and
no new one comes about.  So what replacing does, several times or a limited number of times, can be
told word by word: `replaceWord_outcome`.
-/

namespace ShaderLink.Text

variable {v w w' r r' t : Text}

/-! ## Exchanging words -/

theorem exchange_of_ne (h : v ≠ w) : exchange w r v = v := if_neg h

theorem exchange_eq : exchange w r w = r := if_pos rfl

theorem exchange_comm (hold : w ≠ w') (hnew : r ≠ w') (hnew' : r' ≠ w) (v : Text) :
    exchange w' r' (exchange w r v) = exchange w r (exchange w' r' v) := by
  by_cases hv : v = w
  · rw [hv, exchange_eq, exchange_of_ne hold, exchange_of_ne hnew, exchange_eq]
  · rw [exchange_of_ne hv]
    by_cases hv' : v = w'
    · rw [hv', exchange_eq, exchange_of_ne hnew']
    · rw [exchange_of_ne hv', exchange_of_ne hv]

/-- The first words are exchanged and the others are not. -/
theorem exists_exchangeFirst (old new : Text) (count : Nat) (rs : List Run) :
    ∃ us vs, rs = us ++ vs ∧ us.count (.word old) = min count (rs.count (.word old)) ∧
      exchangeFirst old new count rs = us.map (Run.map (exchange old new)) ++ vs := by
  induction rs generalizing count with
  | nil => exact ⟨[], [], rfl, by simp, by cases count <;> rfl⟩
  | cons s rs ih =>
    cases count with
    | zero => exact ⟨[], s :: rs, rfl, by simp, rfl⟩
    | succ count =>
      by_cases hs : s = .word old
      · obtain ⟨us, vs, hrs, hcount, hfirst⟩ := ih count
        refine ⟨s :: us, vs, congrArg (s :: ·) hrs, ?_, ?_⟩
        · rw [hs, List.count_cons_self, List.count_cons_self, hcount, Nat.add_min_add_right]
        · rw [hs, exchangeFirst, if_pos rfl, hfirst, List.map_cons, Run.map_word, exchange_eq,
            List.cons_append]
      · obtain ⟨us, vs, hrs, hcount, hfirst⟩ := ih (count + 1)
        refine ⟨s :: us, vs, congrArg (s :: ·) hrs, ?_, ?_⟩
        · rw [List.count_cons_of_ne hs, List.count_cons_of_ne hs, hcount]
        · cases s with
          | other c => rw [exchangeFirst, hfirst, List.map_cons, Run.map_other, List.cons_append]
          | word v =>
            have hv : v ≠ old := fun hv => hs (congrArg Run.word hv)
            rw [exchangeFirst, if_neg hv, hfirst, List.map_cons, Run.map_word, exchange_of_ne hv,
              List.cons_append]

/-- Runs stay as they are if the word is not one of them. -/
theorem map_exchange_of_not_mem {rs : List Run} (h : .word w ∉ rs) (r : Text) :
    rs.map (Run.map (exchange w r)) = rs := by
  have hsame : rs.map (Run.map (exchange w r)) = rs.map (Run.map id) :=
    map_eq_map_iff.2 fun v hv => exchange_of_ne fun hvw => h (hvw ▸ hv)
  rw [hsame]
  exact Run.map_eq_self (fun _ => rfl) rs

theorem exchangeFirst_of_not_mem {rs : List Run} (h : .word w ∉ rs) (r : Text) (count : Nat) :
    exchangeFirst w r count rs = rs := by
  obtain ⟨us, vs, rfl, -, hfirst⟩ := exists_exchangeFirst w r count rs
  rw [hfirst, map_exchange_of_not_mem fun hmem => h (List.mem_append_left vs hmem)]

/-! ## Replacing words -/

theorem replaceWord_twice (hw : IsIdentifier w) (hr : IsIdentifier r)
    (hw' : IsIdentifier w') (t r' : Text) : (t.replaceWord w r).replaceWord w' r' =
      flatten ((runs t).map (Run.map fun v => exchange w' r' (exchange w r v))) := by
  rw [replaceWord_eq hw', runs_replaceWord hw hr, Run.map_map]

theorem exists_replaceWordUpTo (hw : IsIdentifier w) (hr : IsIdentifier r) (t : Text) {count : Nat}
    (hcount : 0 < count) : ∃ us vs, runs t = us ++ vs ∧
      us.count (.word w) = min count ((runs t).count (.word w)) ∧
        runs (t.replaceWordUpTo count w r) = us.map (Run.map (exchange w r)) ++ vs := by
  obtain ⟨us, vs, hruns, hnumber, hfirst⟩ := exists_exchangeFirst w r count (runs t)
  refine ⟨us, vs, hruns, hnumber, ?_⟩
  have hne : ¬ (count : Int) = 0 := by omega
  rw [replaceWordUpTo, if_neg hne, Int.toNat_natCast, replaceFirstWords_eq hw, ← hfirst]
  exact runs_flatten ((proper_runs t).of_alike (alike_exchangeFirst hr count _))

/-- Where a word does not occur, nothing is replaced. -/
theorem replaceWordUpTo_of_not_mem (hw : IsIdentifier w) (h : .word w ∉ runs t) (r : Text)
    (count : Int) : t.replaceWordUpTo count w r = t := by
  unfold replaceWordUpTo
  split
  · rw [replaceWord_eq hw, map_exchange_of_not_mem h, flatten_runs]
  · rw [replaceFirstWords_eq hw, exchangeFirst_of_not_mem h, flatten_runs]

/-- Replacing a word exchanges the words of the text that are equal to it: all of them, or the first
ones if a number is given.  It can be undone if the new word was not there before, and words that
have nothing to do with each other are replaced in any order. -/
theorem replaceWord_outcome (hw : IsIdentifier w) (hr : IsIdentifier r) (t : Text) :
    (Proper (runs t) ∧ flatten (runs t) = t) ∧
    runs (t.replaceWord w r) = (runs t).map (Run.map (exchange w r)) ∧
    (∀ count : Nat, 0 < count → ∃ us vs, runs t = us ++ vs ∧
      us.count (.word w) = min count ((runs t).count (.word w)) ∧
        runs (t.replaceWordUpTo count w r) = us.map (Run.map (exchange w r)) ++ vs) ∧
    (t.containsWord w = true ↔ .word w ∈ runs t) ∧
    (t.containsWord r = false → (t.replaceWord w r).replaceWord r w = t) ∧
    (t.containsWord w = false → ∀ count, t.replaceWordUpTo count w r = t) ∧
    ∀ w' r', IsIdentifier w' → IsIdentifier r' → [w, w', r, r'].Nodup →
      (t.replaceWord w r).replaceWord w' r' = (t.replaceWord w' r').replaceWord w r := by
  refine ⟨⟨proper_runs t, flatten_runs t⟩, runs_replaceWord hw hr t,
    fun _ => exists_replaceWordUpTo hw hr t, containsWord_iff hw t, fun hnew => ?_, fun hold => ?_,
    fun w' r' hw' hr' hnodup => ?_⟩
  · exact replaceWord_replaceWord hw hr hnew
  · exact replaceWordUpTo_of_not_mem hw
      (fun hv => Bool.eq_false_iff.1 hold ((containsWord_iff hw t).2 hv)) r
  · have hne : w ≠ w' ∧ r ≠ w' ∧ r' ≠ w := by
      simp only [List.nodup_cons, List.mem_cons, not_or] at hnodup
      exact ⟨hnodup.1.1, Ne.symm hnodup.2.1.1, Ne.symm hnodup.1.2.2.1⟩
    rw [replaceWord_twice hw hr hw', replaceWord_twice hw' hr' hw]
    refine congrArg flatten (map_eq_map_iff.2 fun v _ => ?_)
    exact exchange_comm hne.1 hne.2.1 hne.2.2 v

/-- A word that is also the beginning of another one. -/
def sampleSum : Text := "random(x) + random2(random)".toList

theorem replaceWord_outcome_sum :
    IsIdentifier "random".toList ∧ IsIdentifier "rnd".toList ∧
    (sampleSum.replaceWord "random".toList "rnd".toList).replaceWord "rnd".toList "random".toList =
      sampleSum ∧
    (∀ count, sampleSum.replaceWordUpTo count "rnd".toList "random".toList = sampleSum) ∧
    (sampleSum.replaceWord "random".toList "rnd".toList).replaceWord "x".toList "y".toList =
      (sampleSum.replaceWord "x".toList "y".toList).replaceWord "random".toList "rnd".toList := by
  have hrandom : IsIdentifier "random".toList := by decide
  have hrnd : IsIdentifier "rnd".toList := by decide
  have hnone : sampleSum.containsWord "rnd".toList = false := by decide +kernel
  obtain ⟨-, -, -, -, hback, -, hcomm⟩ := replaceWord_outcome hrandom hrnd sampleSum
  obtain ⟨-, -, -, -, -, hsame, -⟩ := replaceWord_outcome hrnd hrandom sampleSum
  exact ⟨hrandom, hrnd, hback hnone, hsame hnone,
    hcomm "x".toList "y".toList (by decide) (by decide) (by decide)⟩

end ShaderLink.Text
