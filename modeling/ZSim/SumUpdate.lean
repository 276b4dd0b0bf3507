import Mathlib.Algebra.BigOperators.Group.Finset.Piecewise

/-! Sums over an initial segment of the naturals, and how many of its members have a tag. -/

namespace ZSim

open Finset

theorem sum_update_apply {T : Type} {n t : Nat} (ht : t < n) (f : Nat → T → Nat) (family : Nat → T)
    (x : T) :
    ∑ i ∈ range n, f i (Function.update family t x i) + f t (family t) =
      ∑ i ∈ range n, f i (family i) + f t x := by
  have hmem : t ∈ range n := mem_range.mpr ht
  rw [← add_sum_erase _ _ hmem, ← add_sum_erase (range n) (fun i => f i (family i)) hmem,
    Function.update_self]
  have hrest : ∑ i ∈ (range n).erase t, f i (Function.update family t x i) =
      ∑ i ∈ (range n).erase t, f i (family i) := by
    apply sum_congr rfl
    intro i hi
    rw [Function.update_of_ne (ne_of_mem_erase hi)]
  rw [hrest]
  omega

theorem sum_update {T : Type} {n t : Nat} (ht : t < n) (f : T → Nat) (family : Nat → T) (x : T) :
    ∑ i ∈ range n, f (Function.update family t x i) + f (family t) =
      ∑ i ∈ range n, f (family i) + f x :=
  sum_update_apply ht (fun _ => f) family x

theorem sum_update_add {M : Type} [AddCommMonoid M] {n t : Nat} (ht : t < n) (f : Nat → M) (d : M) :
    ∑ i ∈ range n, Function.update f t (f t + d) i = ∑ i ∈ range n, f i + d := by
  have hmem : t ∈ range n := mem_range.mpr ht
  rw [sum_update_of_mem hmem, ← add_sum_erase _ f hmem, sdiff_singleton_eq_erase, add_right_comm]

/-- Two families with the same sum, and a member of each that grows by the same amount. -/
theorem sum_update_eq {M : Type} [AddCommMonoid M] {n m t u : Nat} (ht : t < n) (hu : u < m)
    {f g : Nat → M} {d x : M} (hsum : ∑ i ∈ range n, f i = ∑ i ∈ range m, g i)
    (hx : g u + d = x) :
    ∑ i ∈ range n, Function.update f t (f t + d) i = ∑ i ∈ range m, Function.update g u x i := by
  rw [sum_update_add ht, hsum, ← sum_update_add hu, hx]

/-- How many of the first `n` members have the tag `p`. -/
def tagCount (n : Nat) (tag : Nat → Nat) (p : Nat) : Nat :=
  ((range n).filter fun i => tag i = p).card

variable {n i p q m : Nat} {tag tag' : Nat → Nat}

theorem tagCount_pos (hi : i < n) : 0 < tagCount n tag (tag i) :=
  card_pos.mpr ⟨i, by simp [hi]⟩

theorem tagCount_update (hi : i < n) (q p : Nat) :
    tagCount n (Function.update tag i q) p + (if tag i = p then 1 else 0) =
      tagCount n tag p + if q = p then 1 else 0 := by
  have h := sum_update hi (fun x => if x = p then 1 else 0) tag q
  rwa [← card_filter, ← card_filter] at h

theorem tagCount_self (hp : ∀ i < n, tag i = p) : tagCount n tag p = n := by
  rw [tagCount, filter_true_of_mem fun i hi => hp i (mem_range.mp hi), card_range]

theorem tagCount_other (hp : ∀ i < n, tag i ≠ p) : tagCount n tag p = 0 := by
  rw [tagCount, filter_false_of_mem fun i hi => hp i (mem_range.mp hi), card_empty]

theorem sum_tagCount (h : ∀ i < n, tag i < m) : ∑ p ∈ range m, tagCount n tag p = n := by
  have hmaps : ∀ i ∈ range n, tag i ∈ range m :=
    fun i hi => mem_range.mpr (h i (mem_range.mp hi))
  calc ∑ p ∈ range m, tagCount n tag p = (range n).card :=
        (card_eq_sum_card_fiberwise hmaps).symm
    _ = n := card_range n

end ZSim
