import Mathlib.Data.List.Count
import Mathlib.Data.List.Perm.Basic
import Mathlib.Logic.Function.Basic
import Mathlib.Order.Defs.LinearOrder

/-! Merging many queues by a key of their elements. Each step takes the head with the greatest
key among the heads of all queues. -/

namespace ZSim

namespace KWayMerge

variable {ι α κ : Type*} [DecidableEq ι] [LE κ]

inductive Merges (key : α → κ) : (ι → List α) → List α → Prop
  | nil {q : ι → List α} (h : ∀ i, q i = []) : Merges key q []
  | cons {q : ι → List α} {i : ι} {a : α} {rest out : List α} (hi : q i = a :: rest)
      (hmax : ∀ j b bs, q j = b :: bs → key b ≤ key a)
      (h : Merges key (Function.update q i rest) out) : Merges key q (a :: out)

variable {key : α → κ} {q : ι → List α} {out : List α}

theorem mem_update {i j : ι} {a b : α} {rest : List α} (hi : q i = a :: rest)
    (hb : b ∈ q j) : b ∈ Function.update q i rest j ∨ b = a ∧ j = i := by
  by_cases hij : j = i
  · subst hij
    rw [hi, List.mem_cons] at hb
    rw [Function.update_self]
    exact hb.elim (fun h => .inr ⟨h, rfl⟩) .inl
  · rw [Function.update_of_ne hij]
    exact .inl hb

theorem mem_of_mem_update {i j : ι} {a b : α} {rest : List α} (hi : q i = a :: rest)
    (hb : b ∈ Function.update q i rest j) : b ∈ q j := by
  by_cases hij : j = i
  · subst hij
    rw [Function.update_self] at hb
    exact hi ▸ List.mem_cons_of_mem a hb
  · rwa [Function.update_of_ne hij] at hb

theorem Merges.mem_iff (h : Merges key q out) {a : α} : a ∈ out ↔ ∃ i, a ∈ q i := by
  induction h with
  | nil h => simp [h]
  | @cons q i b rest out hi _ _ ih =>
    rw [List.mem_cons, ih]
    constructor
    · rintro (rfl | ⟨j, hj⟩)
      · exact ⟨i, hi ▸ List.mem_cons_self⟩
      · exact ⟨j, mem_of_mem_update hi hj⟩
    · rintro ⟨j, hj⟩
      rcases mem_update hi hj with hj | ⟨rfl, -⟩
      · exact .inr ⟨j, hj⟩
      · exact .inl rfl

/-- A list whose elements of each owner are among those of another list is a part of it. -/
theorem subperm_of_filter_sublist [DecidableEq α] (owner : α → ι) {l l' : List α}
    (h : ∀ i, (l.filter (owner · = i)).Sublist (l'.filter (owner · = i))) : l.Subperm l' := by
  have hcount (a : α) (m : List α) : (m.filter (owner · = owner a)).count a = m.count a :=
    List.count_filter (decide_eq_true rfl)
  refine List.subperm_ext_iff.mpr fun a _ => ?_
  rw [← hcount a l, ← hcount a l']
  exact (h (owner a)).count_le a

/-- Two lists with the same elements of each owner, in the same order, are permutations. -/
theorem perm_of_filter_eq [DecidableEq α] (owner : α → ι) {l l' : List α}
    (h : ∀ i, l.filter (owner · = i) = l'.filter (owner · = i)) : l.Perm l' :=
  have hsub {m m' : List α} (hm : m = m') : m.Sublist m' := hm ▸ List.Sublist.refl m
  (subperm_of_filter_sublist owner fun i => hsub (h i)).antisymm
    (subperm_of_filter_sublist owner fun i => hsub (h i).symm)

end KWayMerge

end ZSim
