import Mathlib.Logic.Function.Basic
import Mathlib.Tactic.SplitIfs

/-! The counters of the partitions, in lines. -/

namespace ZSim

structure PartInfo where
  size : Nat
  targetSize : Nat

namespace PartInfo

/-- A line changes partitions: `size--` of a zero counter is `none`. -/
def resize (partInfo : Nat → PartInfo) (oldPart newPart : Nat) : Option (Nat → PartInfo) :=
  if oldPart = newPart then some partInfo
  else if (partInfo oldPart).size = 0 then none
  else
    let partInfo := Function.update partInfo oldPart
      { partInfo oldPart with size := (partInfo oldPart).size - 1 }
    some (Function.update partInfo newPart
      { partInfo newPart with size := (partInfo newPart).size + 1 })

variable {partInfo : Nat → PartInfo} {oldPart : Nat}

theorem resize_spec (h : 0 < (partInfo oldPart).size) (newPart : Nat) :
    ∃ partInfo', resize partInfo oldPart newPart = some partInfo' ∧
      (∀ p, (partInfo' p).size + (if oldPart = p then 1 else 0) =
        (partInfo p).size + if newPart = p then 1 else 0) ∧
      ∀ p, (partInfo' p).targetSize = (partInfo p).targetSize := by
  rw [resize]
  split
  · next he =>
    refine ⟨_, rfl, fun p => ?_, fun p => rfl⟩
    rw [he]
  · next hne =>
    rw [if_neg (Nat.ne_of_gt h)]
    refine ⟨_, rfl, fun p => ?_, fun p => ?_⟩
    · simp only [Function.update_apply]
      by_cases hp : p = oldPart
      · subst hp
        rw [if_neg hne, if_pos rfl, if_pos rfl, if_neg (Ne.symm hne)]
        exact Nat.sub_add_cancel h
      · rw [if_neg hp, if_neg (Ne.symm hp), if_neg (Ne.symm hne)]
        by_cases hq : p = newPart
        · rw [if_pos hq, if_pos hq.symm, hq]
        · rw [if_neg hq, if_neg (Ne.symm hq)]
    · simp only [Function.update_apply]
      split_ifs <;> simp_all

end PartInfo

end ZSim
