import ShaderLink.Store

/-!
# Contracts of computations

A computation that may fail begins at a state, and ends with a value or a fault and with a state.
`Ends Q E` says of such an end that `Q` holds of the value and the state, or `E` of the state if
there is a fault.  There is a rule for each way to put computations together, so that a contract is
shown by going through the steps in order; `ends_forM` asks for an invariant.
-/

namespace ShaderLink

variable {ε σ α β : Type}

/-- What holds at the end of a computation, depending on whether it failed. -/
def Ends (Q : α → σ → Prop) (E : σ → Prop) : Except ε α × σ → Prop
  | (.ok a, s) => Q a s
  | (.error _, s) => E s

theorem ends_trivial (r : Except ε α × σ) : Ends (fun _ _ => True) (fun _ => True) r := by
  rcases r with ⟨_ | _, s⟩ <;> trivial

theorem exists_eq_ok {r : Except ε α × σ} (h : r.1.isOk = true) : ∃ a s, r = (.ok a, s) := by
  rcases r with ⟨_ | a, s⟩
  · cases h
  · exact ⟨a, s, rfl⟩

theorem exists_of_bind_eq_ok {x : Except ε α} {f : α → Except ε β} {b : β}
    (h : (x >>= f) = .ok b) : ∃ a, x = .ok a ∧ f a = .ok b := by
  cases x with
  | error e => cases h
  | ok a => exact ⟨a, rfl, h⟩

theorem toOption_eq_some_iff {e : Except ε α} {a : α} : e.toOption = some a ↔ e = .ok a := by
  cases e <;> simp [Except.toOption]

namespace Ends

variable {Q R : α → σ → Prop} {E F : σ → Prop}

theorem mono {r : Except ε α × σ} (h : Ends Q E r) (hQ : ∀ a s, Q a s → R a s)
    (hE : ∀ s, E s → F s) : Ends R F r := by
  obtain ⟨a | a, s⟩ := r
  · exact hE s h
  · exact hQ a s h

theorem imp {r : Except ε α × σ} (h : Ends Q E r) (hQ : ∀ a s, Q a s → R a s) : Ends R E r :=
  h.mono hQ fun _ hs => hs

theorem of_eq_ok {r : Except ε α × σ} {a : α} {s : σ} (h : Ends Q E r) (hr : r = (.ok a, s)) :
    Q a s := by
  rw [hr] at h
  exact h

theorem of_eq_error {r : Except ε α × σ} {e : ε} {s : σ} (h : Ends Q E r)
    (hr : r = (.error e, s)) : E s := by
  rw [hr] at h
  exact h

theorem eq_ok {r : Except ε α × σ} {a : α} {s : σ}
    (h : Ends (fun b s' => b = a ∧ s' = s) (fun _ => False) r) : r = (.ok a, s) := by
  obtain ⟨e | b, s'⟩ := r
  · exact h.elim
  · obtain ⟨rfl, rfl⟩ := h
    rfl

/-- What a computation returns is what it returns. -/
theorem with_eq {r : Except ε α × σ} (h : Ends Q E r) :
    Ends (fun a s => Q a s ∧ r = (.ok a, s)) E r := by
  rcases r with ⟨_ | a, s⟩
  · exact h
  · exact ⟨h, rfl⟩

theorem and {r : Except ε α × σ} (h : Ends Q E r) (h' : Ends R F r) :
    Ends (fun a s => Q a s ∧ R a s) (fun s => E s ∧ F s) r := by
  rcases r with ⟨_ | _, s⟩ <;> exact ⟨h, h'⟩

end Ends

variable {Q : α → σ → Prop} {E : σ → Prop} {R : β → σ → Prop} {s : σ}

@[simp] theorem ends_pure {a : α} :
    Ends Q E ((pure a : ExceptT ε (StateM σ) α) s) ↔ Q a s := Iff.rfl

@[simp] theorem ends_throw {e : ε} :
    Ends Q E ((throw e : ExceptT ε (StateM σ) α) s) ↔ E s := Iff.rfl

/-- A computation goes on where the one before it ended, unless that failed. -/
theorem bind_apply (m : ExceptT ε (StateM σ) α) (f : α → ExceptT ε (StateM σ) β) (s : σ) :
    (m >>= f) s = match m s with
      | (.ok a, s') => f a s'
      | (.error e, s') => (.error e, s') := by
  show ExceptT.bindCont f (m s).1 (m s).2 = _
  rcases m s with ⟨_ | _, s'⟩ <;> rfl

theorem ends_bind {m : ExceptT ε (StateM σ) α} {f : α → ExceptT ε (StateM σ) β} :
    Ends R E ((m >>= f) s) ↔ Ends (fun a s' => Ends R E (f a s')) E (m s) := by
  rw [bind_apply]
  rcases m s with ⟨_ | _, s'⟩ <;> exact Iff.rfl

theorem Ends.bind {m : ExceptT ε (StateM σ) α} {f : α → ExceptT ε (StateM σ) β}
    (h : Ends Q E (m s)) (hf : ∀ a s', Q a s' → Ends R E (f a s')) : Ends R E ((m >>= f) s) :=
  ends_bind.2 (h.imp hf)

@[simp] theorem ends_get {R : σ → σ → Prop} :
    Ends R E ((get : ExceptT ε (StateM σ) σ) s) ↔ R s s := Iff.rfl

@[simp] theorem ends_set {R : PUnit → σ → Prop} {s' : σ} :
    Ends R E ((set s' : ExceptT ε (StateM σ) PUnit) s) ↔ R ⟨⟩ s' := Iff.rfl

@[simp] theorem ends_modify {R : PUnit → σ → Prop} {f : σ → σ} :
    Ends R E ((modify f : ExceptT ε (StateM σ) PUnit) s) ↔ R ⟨⟩ (f s) := Iff.rfl

theorem ends_ofExcept {r : Except ε α} :
    Ends Q E ((ofExcept r : ExceptT ε (StateM σ) α) s) ↔
      (∀ a, r = .ok a → Q a s) ∧ ∀ e, r = .error e → E s := by
  cases r with
  | ok a => exact ⟨fun h => ⟨fun b hb => Except.ok.inj hb ▸ h, nofun⟩, fun h => h.1 a rfl⟩
  | error e => exact ⟨fun h => ⟨nofun, fun _ _ => h⟩, fun h => h.2 e rfl⟩

theorem ends_tryCatch {m : ExceptT ε (StateM σ) α} {handle : ε → ExceptT ε (StateM σ) α}
    (hm : Ends Q (fun s' => ∀ e, Ends Q E (handle e s')) (m s)) :
    Ends Q E ((tryCatch m handle : ExceptT ε (StateM σ) α) s) := by
  have h : (tryCatch m handle : ExceptT ε (StateM σ) α) s = match m s with
      | (.ok a, s') => (.ok a, s')
      | (.error e, s') => handle e s' := by
    show (match (m s).1 with
      | .ok a => pure (.ok a)
      | .error e => handle e : StateM σ (Except ε α)) (m s).2 = _
    rcases m s with ⟨_ | _, s'⟩ <;> rfl
  rw [h]
  revert hm
  rcases m s with ⟨e | a, s'⟩
  · exact fun hm => hm e
  · exact fun hm => hm

/-! ## Loops -/

theorem ends_forM {I : σ → Prop} {l : List α} {f : α → ExceptT ε (StateM σ) PUnit}
    (step : ∀ a ∈ l, ∀ s, I s → Ends (fun _ => I) E (f a s)) (hs : I s) :
    Ends (fun _ => I) E (l.forM f s) := by
  induction l generalizing s with
  | nil => exact hs
  | cons a l ih =>
    refine (step a List.mem_cons_self s hs).bind fun _ s' hs' => ?_
    exact ih (fun b hb => step b (List.mem_cons_of_mem _ hb)) hs'

theorem ends_forIn {I : σ → Prop} {l : List α}
    {f : α → PUnit → ExceptT ε (StateM σ) (ForInStep PUnit)}
    (step : ∀ a ∈ l, ∀ s, I s → Ends (fun _ => I) E (f a ⟨⟩ s)) (hs : I s) :
    Ends (fun _ => I) E ((forIn l PUnit.unit f : ExceptT ε (StateM σ) PUnit) s) := by
  induction l generalizing s with
  | nil => exact hs
  | cons a l ih =>
    rw [List.forIn_cons]
    refine (step a List.mem_cons_self s hs).bind fun r s' hs' => ?_
    cases r with
    | done b => exact hs'
    | yield b => exact ih (fun b hb => step b (List.mem_cons_of_mem _ hb)) hs'

theorem ends_mapM {P : β → Prop} {I : σ → Prop} {l : List α} {f : α → ExceptT ε (StateM σ) β}
    (step : ∀ a ∈ l, ∀ s, I s → Ends (fun b s' => P b ∧ I s') E (f a s)) (hs : I s) :
    Ends (fun bs s' => (∀ b ∈ bs, P b) ∧ I s') E (l.mapM f s) := by
  induction l generalizing s with
  | nil => exact ⟨nofun, hs⟩
  | cons a l ih =>
    rw [List.mapM_cons]
    refine (step a List.mem_cons_self s hs).bind fun b s' hb => ?_
    refine (ih (fun b hb => step b (List.mem_cons_of_mem _ hb)) hb.2).bind fun bs s'' hbs => ?_
    exact ⟨List.forall_mem_cons.2 ⟨hb.1, hbs.1⟩, hbs.2⟩

/-! ### Loops that know what is left -/

theorem ends_forM_rest {I : List α → σ → Prop} {l : List α} {f : α → ExceptT ε (StateM σ) PUnit}
    (step : ∀ a l s, I (a :: l) s → Ends (fun _ => I l) E (f a s)) (hs : I l s) :
    Ends (fun _ => I []) E (l.forM f s) := by
  induction l generalizing s with
  | nil => exact hs
  | cons a l ih => exact (step a l s hs).bind fun _ s' hs' => ih hs'

theorem ends_mapM_rest {I : List α → List β → σ → Prop} {l : List α}
    {f : α → ExceptT ε (StateM σ) β}
    (step : ∀ a l bs s, I (a :: l) bs s → Ends (fun b => I l (bs ++ [b])) E (f a s))
    (hs : I l [] s) : Ends (fun bs => I [] bs) E (l.mapM f s) := by
  have hfrom : ∀ (l : List α) (bs : List β) (s : σ), I l bs s →
      Ends (fun bs' => I [] (bs ++ bs')) E (l.mapM f s) := by
    intro l
    induction l with
    | nil =>
      intro bs s hs
      show I [] (bs ++ []) s
      rwa [List.append_nil]
    | cons a l ih =>
      intro bs s hs
      rw [List.mapM_cons]
      refine (step a l bs s hs).bind fun b s' hb => ?_
      refine (ih (bs ++ [b]) s' hb).bind fun bs' s'' hbs' => ?_
      rwa [List.append_assoc] at hbs'
  exact hfrom l [] s hs

end ShaderLink
