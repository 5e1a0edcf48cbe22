import ShaderLink.Text.Basic

/-!
# The order of texts

Texts are ordered by their code points; what is the beginning of another text comes before it.
-/

namespace ShaderLink.Text

/-- The first text comes before the second, or is the same. -/
def precedes : Text → Text → Bool
  | [], _ => true
  | _ :: _, [] => false
  | a :: t, b :: u => if a = b then precedes t u else a.toNat < b.toNat

/-- Puts a text into an ordered list. -/
def place (t : Text) : List Text → List Text
  | [] => [t]
  | u :: us => if precedes t u then t :: u :: us else u :: place t us

/-- The texts in order. -/
def sorted (ts : List Text) : List Text := ts.foldr place []

theorem place_perm (t : Text) (ts : List Text) : (place t ts).Perm (t :: ts) := by
  induction ts with
  | nil => exact List.Perm.refl _
  | cons u us ih =>
    unfold place
    split
    · exact List.Perm.refl _
    · exact (ih.cons u).trans (List.Perm.swap t u us)

theorem sorted_perm (ts : List Text) : (sorted ts).Perm ts := by
  induction ts with
  | nil => exact List.Perm.refl _
  | cons t ts ih => exact (place_perm t (sorted ts)).trans (ih.cons t)

/-! ## The order -/

variable {t u v : Text} {a b : Char} {ts us : List Text}

theorem precedes_cons_iff :
    precedes (a :: t) (b :: u) = true ↔ a = b ∧ precedes t u = true ∨ a.toNat < b.toNat := by
  rw [precedes]
  split
  · rename_i hab
    simp [hab]
  · rename_i hab
    simp [hab]

theorem precedes_antisymm (htu : precedes t u = true) (hut : precedes u t = true) : t = u := by
  induction t generalizing u with
  | nil =>
    cases u with
    | nil => rfl
    | cons b u => cases hut
  | cons a t ih =>
    cases u with
    | nil => cases htu
    | cons b u =>
      rcases precedes_cons_iff.1 htu with ⟨rfl, h₁⟩ | hlt
      · rcases precedes_cons_iff.1 hut with ⟨-, h₂⟩ | hlt
        · rw [ih h₁ h₂]
        · omega
      · rcases precedes_cons_iff.1 hut with ⟨rfl, -⟩ | hgt
        · omega
        · omega

theorem precedes_trans (htu : precedes t u = true) (huv : precedes u v = true) :
    precedes t v = true := by
  induction t generalizing u v with
  | nil => rfl
  | cons a t ih =>
    cases u with
    | nil => cases htu
    | cons b u =>
      cases v with
      | nil => cases huv
      | cons c v =>
        rw [precedes_cons_iff] at htu huv ⊢
        rcases htu with ⟨rfl, htu⟩ | hlt
        · exact huv.imp_left (And.imp_right (ih htu))
        · rcases huv with ⟨rfl, -⟩ | hlt'
          · exact Or.inr hlt
          · exact Or.inr (Nat.lt_trans hlt hlt')

theorem precedes_total (h : ¬ precedes t u = true) : precedes u t = true := by
  induction t generalizing u with
  | nil => exact absurd rfl h
  | cons a t ih =>
    cases u with
    | nil => rfl
    | cons b u =>
      rw [precedes_cons_iff, not_or, not_and] at h
      rw [precedes_cons_iff]
      by_cases hab : a = b
      · exact Or.inl ⟨hab.symm, ih (h.1 hab)⟩
      · have hne : a.toNat ≠ b.toNat := fun hnat => hab (Char.toNat_inj.1 hnat)
        exact Or.inr (by omega)

/-! ## Ordered lists -/

theorem pairwise_place (h : ts.Pairwise fun t u => precedes t u = true) (t : Text) :
    (place t ts).Pairwise fun t u => precedes t u = true := by
  induction ts with
  | nil => exact List.pairwise_singleton _ t
  | cons u us ih =>
    obtain ⟨hu, hus⟩ := List.pairwise_cons.1 h
    unfold place
    split
    · rename_i htu
      refine List.pairwise_cons.2 ⟨fun v hv => ?_, h⟩
      rcases List.mem_cons.1 hv with rfl | hv
      · exact htu
      · exact precedes_trans htu (hu v hv)
    · rename_i htu
      refine List.pairwise_cons.2 ⟨fun v hv => ?_, ih hus⟩
      rcases List.mem_cons.1 ((place_perm t us).mem_iff.1 hv) with rfl | hv
      · exact precedes_total htu
      · exact hu v hv

theorem pairwise_sorted (ts : List Text) :
    (sorted ts).Pairwise fun t u => precedes t u = true := by
  induction ts with
  | nil => exact List.Pairwise.nil
  | cons t ts ih => exact pairwise_place ih t

/-- In order, lists are the same if they have the same texts, each as often. -/
theorem sorted_eq_iff : sorted ts = sorted us ↔ ts.Perm us := by
  constructor
  · intro h
    exact (sorted_perm ts).symm.trans (h ▸ sorted_perm us)
  · intro h
    exact List.Perm.eq_of_pairwise (fun t u _ _ => precedes_antisymm) (pairwise_sorted ts)
      (pairwise_sorted us) ((sorted_perm ts).trans (h.trans (sorted_perm us).symm))

end ShaderLink.Text
