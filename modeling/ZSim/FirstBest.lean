import Mathlib.Data.List.MinMax

/-! Scans that keep the first element with the least key, and folds that raise a bound. -/

namespace ZSim

namespace FirstBest

variable {α β : Type} [LinearOrder β] {key : α → β}

theorem foldl_argAux (b : α) (l : List α) :
    l.foldl (List.argAux fun c best => key c < key best) (some b) =
      some (l.foldl (fun best c => if key c < key best then c else best) b) := by
  induction l generalizing b with
  | nil => rfl
  | cons c l ih =>
    rw [List.foldl_cons, List.foldl_cons, ← ih]
    by_cases h : key c < key b
    · simp [List.argAux, h]
    · simp [List.argAux, h]

theorem argmin_cons_eq (b : α) (l : List α) :
    (b :: l).argmin key =
      some (l.foldl (fun best c => if key c < key best then c else best) b) :=
  foldl_argAux b l

theorem argmin_append {l r : List α} {x y : α} (hl : l.argmin key = some x)
    (hr : r.argmin key = some y) :
    (l ++ r).argmin key = some (if key y < key x then y else x) := by
  induction r using List.reverseRecOn generalizing y with
  | nil => cases hr
  | append_singleton r a ih =>
    rw [← List.append_assoc, List.argmin_concat]
    rw [List.argmin_concat] at hr
    cases hm : r.argmin key with
    | none =>
      rw [hm] at hr
      cases hr
      rw [List.argmin_eq_none.mp hm, List.append_nil, hl]
      exact (apply_ite some _ _ _).symm
    | some m =>
      rw [hm] at hr
      rw [ih hm]
      dsimp only at hr ⊢
      by_cases hmx : key m < key x
      · rw [if_pos hmx]
        by_cases ham : key a < key m
        · rw [if_pos ham] at hr ⊢
          cases hr
          rw [if_pos (ham.trans hmx)]
        · rw [if_neg ham] at hr ⊢
          cases hr
          rw [if_pos hmx]
      · rw [if_neg hmx]
        by_cases ham : key a < key m
        · rw [if_pos ham] at hr
          cases hr
          exact (apply_ite some _ _ _).symm
        · rw [if_neg ham] at hr
          cases hr
          rw [if_neg hmx, if_neg (not_lt.mpr ((not_lt.mp hmx).trans (not_lt.mp ham)))]

end FirstBest

theorem le_foldl {α : Type} {f : Nat → α → Nat} (hf : ∀ m x, m ≤ f m x) (l : List α) (m : Nat) :
    m ≤ l.foldl f m := by
  induction l generalizing m with
  | nil => exact Nat.le_refl m
  | cons x l ih => exact Nat.le_trans (hf m x) (ih _)

theorem le_foldl_of_mem {α : Type} {f : Nat → α → Nat} {k : Nat} {x : α} {l : List α}
    (hf : ∀ m x, m ≤ f m x) (hk : ∀ m, k ≤ f m x) (hx : x ∈ l) (m : Nat) : k ≤ l.foldl f m := by
  induction l generalizing m with
  | nil => cases hx
  | cons y l ih =>
    rcases List.mem_cons.mp hx with rfl | hx
    · exact Nat.le_trans (hk m) (le_foldl hf l _)
    · exact ih hx _

end ZSim
