import ZSim.ParseMask
import Mathlib.Data.Set.Insert

/-! What a range of a mask string fills. -/

namespace ZSim

namespace ParseMask

/-- The numbers from `i` on, `step` apart, below `sup`. -/
def upTo (i sup step : Nat) : Set Nat := {j | j < sup ∧ ∃ k, j = i + k * step}

/-- A mask with the members of a set added. -/
structure Filled (mask : List Bool) (S : Set Nat) (mask' : List Bool) : Prop where
  length : mask'.length = mask.length
  set : ∀ i, mask'[i]? = some true ↔ mask[i]? = some true ∨ i ∈ S

variable {i j sup step : Nat} {mask mask₁ mask' mask'' : List Bool} {S S' : Set Nat}

theorem upTo_of_le (h : sup ≤ i) : upTo i sup step = ∅ := by
  refine Set.eq_empty_of_forall_notMem fun j ⟨hlt, k, hk⟩ => ?_
  have : i ≤ j := hk ▸ Nat.le_add_right i (k * step)
  omega

theorem upTo_of_lt (h : i < sup) : upTo i sup step = insert i (upTo (i + step) sup step) := by
  ext j
  rw [Set.mem_insert_iff]
  constructor
  · rintro ⟨hlt, k, rfl⟩
    cases k with
    | zero => simp
    | succ k => exact .inr ⟨hlt, k, by rw [Nat.succ_mul]; omega⟩
  · rintro (rfl | ⟨hlt, k, rfl⟩)
    · exact ⟨h, 0, by simp⟩
    · exact ⟨hlt, k + 1, by rw [Nat.succ_mul]; omega⟩

/-- The last member is less than a step from the end. -/
theorem exists_last (h : i < sup) (hstep : 0 < step) : ∃ j ∈ upTo i sup step, sup ≤ j + step := by
  have hdiv := Nat.div_add_mod (sup - 1 - i) step
  have hmod := Nat.mod_lt (sup - 1 - i) hstep
  refine ⟨i + (sup - 1 - i) / step * step, ⟨?_, _, rfl⟩, ?_⟩ <;>
    rw [Nat.mul_comm _ step] <;> omega

theorem Filled.empty_iff : Filled mask ∅ mask' ↔ mask' = mask := by
  constructor
  · rintro ⟨hlen, hset⟩
    refine List.ext_getElem hlen fun i hi hi' => ?_
    have h := hset i
    simp only [List.getElem?_eq_getElem hi, List.getElem?_eq_getElem hi', Option.some.injEq,
      Set.mem_empty_iff_false, or_false] at h
    exact Bool.eq_iff_iff.mpr h
  · rintro rfl
    exact ⟨rfl, by simp⟩

theorem Filled.trans_iff (h : Filled mask S mask₁) :
    Filled mask₁ S' mask' ↔ Filled mask (S ∪ S') mask' := by
  constructor
  · rintro ⟨hlen, hset⟩
    exact ⟨hlen.trans h.length, fun i => by rw [hset, h.set, Set.mem_union, or_assoc]⟩
  · rintro ⟨hlen, hset⟩
    exact ⟨hlen.trans h.length.symm, fun i => by rw [hset, h.set, Set.mem_union, or_assoc]⟩

theorem Filled.set_true (h : i < mask.length) : Filled mask {i} (mask.set i true) := by
  refine ⟨List.length_set, fun j => ?_⟩
  rw [List.getElem?_set, Set.mem_singleton_iff]
  by_cases hj : i = j
  · simp [hj, hj ▸ h]
  · simp [hj, Ne.symm hj]

theorem Filled.exists (h : ∀ i ∈ S, i < mask.length) : ∃ mask', Filled mask S mask' := by
  classical
  refine ⟨mask.mapIdx fun i b => b || decide (i ∈ S), List.length_mapIdx, fun i => ?_⟩
  rw [List.getElem?_mapIdx]
  cases hget : mask[i]? with
  | some b => simp
  | none =>
    have hnot : i ∉ S := fun hi => Nat.not_le_of_lt (h i hi) (List.getElem?_eq_none_iff.mp hget)
    simp [hnot]

/-- What `fill` needs of the members: they are below the mask's size, that is an `int32_t`, and so
is the index after each. -/
def Fits (S : Set Nat) (step size : Nat) : Prop :=
  ∀ i ∈ S, i < size ∧ size < 2 ^ 31 ∧ i + step < 2 ^ 31

theorem toInt_eq_toNat {x : BitVec 32} (h : 0 ≤ x.toInt) : x.toInt = x.toNat := by
  have hlt := x.isLt
  rw [BitVec.toInt_eq_toNat_cond] at h ⊢
  split <;> omega

theorem ofNat_toInt {n : Nat} (h : n < 2 ^ 32) :
    (BitVec.ofNat 32 n).toInt = if n < 2 ^ 31 then (n : Int) else n - 2 ^ 32 := by
  rw [BitVec.toInt_eq_toNat_cond, BitVec.toNat_ofNat, Nat.mod_eq_of_lt h]
  split <;> split <;> omega

theorem fillFrom_neg {r : Range} {i : BitVec 32} (h : i.toInt < 0) : r.fillFrom i mask = none := by
  have hmin := r.min_nonneg
  have hlt := r.min_lt_sup
  rw [Range.fillFrom, if_pos (by omega), if_pos (.inr h)]

theorem fillFrom_iff {r : Range} {i : BitVec 32} (hi : 0 ≤ i.toInt) (hlen : mask.length < 2 ^ 32) :
    r.fillFrom i mask = some mask' ↔
      Fits (upTo i.toNat r.sup.toNat r.step.toNat) r.step.toNat mask.length ∧
        Filled mask (upTo i.toNat r.sup.toNat r.step.toNat) mask' := by
  have hsup := toInt_eq_toNat (Int.le_trans r.min_nonneg (Int.le_of_lt r.min_lt_sup))
  have hstep := toInt_eq_toNat (Int.le_of_lt r.step_pos)
  have hsize := ofNat_toInt hlen
  fun_induction Range.fillFrom r i mask with
  | case1 i mask hlt hpanic =>
    have hnat := toInt_eq_toNat hi
    rw [upTo_of_lt (by omega)]
    refine iff_of_false (by simp) fun h => ?_
    obtain ⟨hmem, hsmall, -⟩ := h.1 i.toNat (Set.mem_insert _ _)
    rw [if_pos hsmall] at hsize
    omega
  | case2 i mask hlt hin ih =>
    have hnat := toInt_eq_toNat hi
    rw [upTo_of_lt (by omega)]
    have hmem : i.toNat < mask.length := by
      split at hsize <;> omega
    have hsmall : mask.length < 2 ^ 31 := by
      split at hsize <;> omega
    rcases Range.next_index i r.step hi r.step_pos with ⟨hneg, hover⟩ | hnext
    · rw [fillFrom_neg hneg]
      refine iff_of_false (by simp) fun h => ?_
      obtain ⟨-, -, hfit⟩ := h.1 i.toNat (Set.mem_insert _ _)
      omega
    · have hpos := r.step_pos
      have hnat' := toInt_eq_toNat (x := i + r.step) (by omega)
      have hlt' := BitVec.toInt_lt (x := i + r.step)
      have hsum : (i + r.step).toNat = i.toNat + r.step.toNat := by omega
      refine (ih (by omega) (by simpa using hlen) (by simpa using hsize)).trans ?_
      rw [hsum, (Filled.set_true hmem).trans_iff, List.length_set, Set.singleton_union]
      refine and_congr_left fun _ => ⟨fun h j hj => ?_, fun h j hj => h j (.inr hj)⟩
      rcases hj with rfl | hj
      · exact ⟨hmem, hsmall, by omega⟩
      · exact h j hj
  | case3 i mask hge =>
    have hnat := toInt_eq_toNat hi
    rw [upTo_of_le (by omega), Filled.empty_iff, Option.some.injEq, eq_comm]
    simp [Fits]

end ParseMask

end ZSim
