import Mathlib.Init

/-! While loops in a monad. A loop is given the greatest number of tests of its condition, and
`stuck` is what it gives when they do not suffice. -/

namespace ZSim

namespace WhileLoop

variable {σ : Type*} {m : Type _ → Type _} [Monad m]

def whileM (stuck : m σ) (cond : σ → Bool) (body : σ → m σ) : Nat → σ → m σ
  | 0, _ => stuck
  | fuel + 1, s => if cond s then body s >>= whileM stuck cond body fuel else pure s

/-- A loop whose body keeps an invariant and decreases a measure ends with the invariant and the
condition false, when its tests exceed the measure. -/
theorem whileM_spec [LawfulMonad m] (stuck : m σ) (cond : σ → Bool) (body : σ → m σ)
    (inv : σ → Prop) (measure : σ → Nat)
    (hbody : ∀ s, inv s → cond s = true →
      ∃ s', body s = pure s' ∧ inv s' ∧ measure s' < measure s)
    {fuel : Nat} {s : σ} (hs : inv s) (hfuel : measure s < fuel) :
    ∃ s', whileM stuck cond body fuel s = pure s' ∧ inv s' ∧ cond s' = false := by
  induction fuel generalizing s with
  | zero => exact absurd hfuel (Nat.not_lt_zero _)
  | succ fuel ih =>
    cases hcond : cond s with
    | false => exact ⟨s, by simp [whileM, hcond], hs, hcond⟩
    | true =>
      obtain ⟨s₁, hstep, hinv, hlt⟩ := hbody s hs hcond
      obtain ⟨s', hrun, hs'⟩ := ih hinv (by omega)
      exact ⟨s', by simpa [whileM, hcond, hstep] using hrun, hs'⟩

/-- A loop whose body may also fail, in the ways that `failed` tells, ends or fails so. -/
theorem whileM_except {ε σ : Type} (stuck : Except ε σ) (cond : σ → Bool)
    (body : σ → Except ε σ)
    (inv : σ → Prop) (failed : ε → Prop) (measure : σ → Nat)
    (hbody : ∀ s, inv s → cond s = true →
      (∃ s', body s = .ok s' ∧ inv s' ∧ measure s' < measure s) ∨
        ∃ e, body s = .error e ∧ failed e)
    {fuel : Nat} {s : σ} (hs : inv s) (hfuel : measure s < fuel) :
    (∃ s', whileM stuck cond body fuel s = .ok s' ∧ inv s' ∧ cond s' = false) ∨
      ∃ e, whileM stuck cond body fuel s = .error e ∧ failed e := by
  induction fuel generalizing s with
  | zero => exact absurd hfuel (Nat.not_lt_zero _)
  | succ fuel ih =>
    rw [whileM]
    cases hcond : cond s with
    | false => exact .inl ⟨s, rfl, hs, hcond⟩
    | true =>
      rcases hbody s hs hcond with ⟨s₁, hstep, hinv, hlt⟩ | ⟨e, hstep, hfailed⟩
      · rw [hstep]
        exact ih hinv (by omega)
      · rw [hstep]
        exact .inr ⟨e, rfl, hfailed⟩

end WhileLoop

end ZSim
