import ZSim.TopController

/-! Frame rules of the top controller: what every invalidation of a child keeps, each
of its operations keeps, whether or not the directory agrees with the children. -/

namespace ZSim

variable {σ : Type}

/-- A relation kept by the invalidations of the children. -/
structure InvalidateFrame (invalidate : InvalidateChild σ) (R : σ → σ → Prop) : Prop where
  refl : ∀ w, R w w
  trans : ∀ w w' w'', R w w' → R w' w'' → R w w''
  inv : ∀ c type w w' b, invalidate c type w = some (w', b) → R w w'

namespace MESITopCC

variable {invalidate : InvalidateChild σ} {R : σ → σ → Prop} {n : Nat} {e e' : Entry}
  {w w' : σ} {wb wb' : Bool}

theorem sendLoop_frame (hF : InvalidateFrame invalidate R) {type : InvType} {cs : List Nat}
    {k k' : Nat} (h : sendLoop invalidate type cs e w wb k = some (e', w', wb', k')) : R w w' := by
  induction cs generalizing e w wb k with
  | nil =>
    simp only [sendLoop, Option.some.injEq, Prod.mk.injEq] at h
    exact h.2.1 ▸ hF.refl w
  | cons c cs ih =>
    by_cases hb : e.sharers c = true
    · cases hi : invalidate c type w with
      | none => simp [sendLoop, hb, hi] at h
      | some r =>
        simp only [sendLoop, hb, if_true, hi] at h
        exact hF.trans _ _ _ (hF.inv c type w r.1 r.2 hi) (ih h)
    · simp only [sendLoop, hb, if_false, Bool.false_eq_true] at h
      exact ih h

theorem sendInvalidates_frame (hF : InvalidateFrame invalidate R) {type : InvType}
    (h : sendInvalidates n invalidate e type wb w = some (e', w', wb')) : R w w' := by
  have hsame : some (e, w, wb) = some (e', w', wb') → R w w' := fun hh => by
    simp only [Option.some.injEq, Prod.mk.injEq] at hh
    exact hh.2.1 ▸ hF.refl w
  simp only [sendInvalidates] at h
  split at h
  · exact hsame h
  split at h
  · exact hsame h
  split at h
  · simp at h
  · rename_i e₁ w₁ wb₁ k hs
    have hR := sendLoop_frame hF hs
    split at h
    · split at h
      · simp only [Option.some.injEq, Prod.mk.injEq] at h
        exact h.2.1 ▸ hR
      · split at h
        · simp only [Option.some.injEq, Prod.mk.injEq] at h
          exact h.2.1 ▸ hR
        · simp at h
    · simp at h

theorem processInval_frame (hF : InvalidateFrame invalidate R) {hack : Bool} {type : InvType}
    (h : processInval hack n invalidate e type wb w = some (e', w', wb')) : R w w' := by
  simp only [processInval] at h
  split at h
  · split at h
    · simp at h
    · simp only [Option.some.injEq, Prod.mk.injEq] at h
      exact h.2.1 ▸ hF.refl w
  · exact sendInvalidates_frame hF h

theorem processEviction_frame (hF : InvalidateFrame invalidate R) {hack : Bool}
    (h : processEviction hack n invalidate e wb w = some (e', w', wb')) : R w w' := by
  simp only [processEviction] at h
  split at h
  · simp only [Option.some.injEq, Prod.mk.injEq] at h
    exact h.2.1 ▸ hF.refl w
  · exact sendInvalidates_frame hF h

theorem processAccess_frame (hF : InvalidateFrame invalidate R) {type : AccessType} {c : Nat}
    {excl : Bool} {childState x : MESIState} {flags : BitVec 32}
    (h : processAccess n invalidate e type c excl childState flags wb w = some (e', x, w', wb')) :
    R w w' := by
  have hdrop : (dropSharer e c).map (fun r => (r.1, r.2, w, wb)) = some (e', x, w', wb') →
      R w w' := fun hh => by
    obtain ⟨r, _, hr⟩ := Option.map_eq_some_iff.mp hh
    simp only [Prod.mk.injEq] at hr
    exact hr.2.2.1 ▸ hF.refl w
  cases type with
  | PUTS => exact hdrop h
  | PUTX =>
    simp only [processAccess] at h
    split at h
    · split at h
      · split at h
        · simp only [Option.some.injEq, Prod.mk.injEq] at h
          exact h.2.2.1 ▸ hF.refl w
        · simp at h
      · exact hdrop h
    · simp at h
  | GETS =>
    simp only [processAccess] at h
    split at h
    · simp only [Option.some.injEq, Prod.mk.injEq] at h
      exact h.2.2.1 ▸ hF.refl w
    split at h
    · simp at h
    split at h
    · simp at h
    · rename_i e₁ w₁ wb₁ hs
      have hR : R w w₁ := by
        split at hs
        · exact sendInvalidates_frame hF hs
        · simp only [Option.some.injEq, Prod.mk.injEq] at hs
          exact hs.2.1 ▸ hF.refl w
      split at h
      · simp at h
      · simp only [Option.some.injEq, Prod.mk.injEq] at h
        exact h.2.2.1 ▸ hR
  | GETX =>
    simp only [processAccess] at h
    split at h
    · split at h
      · simp at h
      split at h
      · simp at h
      · rename_i e₁ w₁ wb₁ hs
        have hR := sendInvalidates_frame hF hs
        split at h
        · simp only [Option.some.injEq, Prod.mk.injEq] at h
          exact h.2.2.1 ▸ hR
        · simp at h
    · simp at h

end MESITopCC

end ZSim
