import Mathlib.Data.Option.Basic

/-! Two partial computations in lockstep: both fail, or both succeed with related
results. -/

variable {α β γ δ : Type}

/-- Both sides fail, or both return and the results are related. -/
def Lockstep (R : α → β → Prop) : Option α → Option β → Prop
  | some a, some b => R a b
  | none, none => True
  | _, _ => False

namespace Lockstep

variable {R : α → β → Prop} {S : γ → δ → Prop} {x : Option α} {y : Option β}

theorem bind {f : α → Option γ} {g : β → Option δ} (h : Lockstep R x y)
    (hfg : ∀ a b, x = some a → y = some b → R a b → Lockstep S (f a) (g b)) :
    Lockstep S (x.bind f) (y.bind g) := by
  cases x with
  | none =>
    cases y with
    | none => trivial
    | some b => exact h.elim
  | some a =>
    cases y with
    | none => exact h.elim
    | some b => exact hfg a b rfl rfl h

theorem map {f : α → γ} {g : β → δ} (h : Lockstep R x y)
    (hfg : ∀ a b, x = some a → y = some b → R a b → S (f a) (g b)) :
    Lockstep S (x.map f) (y.map g) := by
  cases x with
  | none =>
    cases y with
    | none => trivial
    | some b => exact h.elim
  | some a =>
    cases y with
    | none => exact h.elim
    | some b => exact hfg a b rfl rfl h

theorem map_right {S : α → δ → Prop} {g : β → δ} (h : Lockstep R x y)
    (hg : ∀ a b, x = some a → y = some b → R a b → S a (g b)) : Lockstep S x (y.map g) := by
  have hm := h.map (f := fun a => a) hg
  rwa [Option.map_id'] at hm

theorem none_iff (h : Lockstep R x y) : x = none ↔ y = none := by
  cases x with
  | none =>
    cases y with
    | none => simp
    | some b => exact h.elim
  | some a =>
    cases y with
    | none => exact h.elim
    | some b => simp

theorem imp {Q : α → β → Prop} (h : Lockstep R x y)
    (hRQ : ∀ a b, x = some a → y = some b → R a b → Q a b) : Lockstep Q x y := by
  cases x with
  | none =>
    cases y with
    | none => trivial
    | some b => exact h.elim
  | some a =>
    cases y with
    | none => exact h.elim
    | some b => exact hRQ a b rfl rfl h

end Lockstep
