import ZSim.DDRMemory
import ZSim.SumUpdate
import Mathlib.Algebra.Order.BigOperators.Group.Finset

/-! The activation window of a rank: each activation takes the place of one that is at least
`tFAW` older, in whatever order the buffer keeps them. -/

namespace ZSim

namespace ActWindow

open Finset

variable {w w' : ActWindow} {actCycle : Nat}

theorem dec_lt {i : Nat} (hi : i < w.size) : w.dec i < w.size := by
  rw [dec]
  split
  · omega
  · omega

/-- The loop moves entries around the place it is at, and loses none but the oldest. -/
theorem reorder_sum (f : Nat → Nat) (fuel : Nat) (buf : Nat → Nat) {cur : Nat}
    (hcur : cur < w.size) :
    (w.reorder actCycle fuel buf cur).2 < w.size ∧
      ∑ i ∈ range w.size, f ((w.reorder actCycle fuel buf cur).1 i) + f (buf cur) =
        ∑ i ∈ range w.size, f (buf i) +
          f ((w.reorder actCycle fuel buf cur).1 (w.reorder actCycle fuel buf cur).2) := by
  induction fuel generalizing buf cur with
  | zero => exact ⟨hcur, rfl⟩
  | succ fuel ih =>
    rw [reorder]
    by_cases hlt : actCycle < buf (w.dec cur)
    · rw [if_pos hlt]
      have hmove := sum_update hcur f buf (buf (w.dec cur))
      have hplace : Function.update buf cur (buf (w.dec cur)) (w.dec cur) = buf (w.dec cur) := by
        by_cases heq : w.dec cur = cur
        · rw [heq, Function.update_self]
        · exact Function.update_of_ne heq ..
      by_cases hback : w.dec cur = w.idx
      · rw [if_pos hback]
        refine ⟨dec_lt hcur, ?_⟩
        show ∑ i ∈ range w.size, f (Function.update buf cur (buf (w.dec cur)) i) + _ =
          _ + f (Function.update buf cur (buf (w.dec cur)) (w.dec cur))
        rw [hplace]
        exact hmove
      · rw [if_neg hback]
        obtain ⟨hlt', hsum⟩ := ih (Function.update buf cur (buf (w.dec cur))) (dec_lt hcur)
        refine ⟨hlt', ?_⟩
        rw [hplace] at hsum
        omega
    · rw [if_neg hlt]
      exact ⟨hcur, rfl⟩

theorem addActivation_sum (h : w.addActivation actCycle = some w') (hidx : w.idx < w.size)
    (f : Nat → Nat) :
    ∑ i ∈ range w'.size, f (w'.buf i) + f w.minActCycle =
      ∑ i ∈ range w.size, f (w.buf i) + f actCycle := by
  rw [addActivation] at h
  split at h
  · cases h
    obtain ⟨hlt, hsum⟩ := @reorder_sum w actCycle f w.size w.buf w.idx hidx
    have hset := sum_update hlt f (w.reorder actCycle w.size w.buf w.idx).1 actCycle
    show ∑ i ∈ range w.size, f (Function.update (w.reorder actCycle w.size w.buf w.idx).1
      (w.reorder actCycle w.size w.buf w.idx).2 actCycle i) + f (w.buf w.idx) = _
    omega
  · cases h

theorem addActivation_size (h : w.addActivation actCycle = some w') (hidx : w.idx < w.size) :
    w'.size = w.size ∧ w'.idx < w'.size := by
  rw [addActivation] at h
  split at h
  · cases h
    refine ⟨rfl, ?_⟩
    show w.inc w.idx < w.size
    rw [inc]
    split
    · omega
    · omega
  · cases h

theorem addActivation_of_le (h : w.minActCycle ≤ actCycle) :
    ∃ w', w.addActivation actCycle = some w' := by
  rw [minActCycle] at h
  rw [addActivation, if_pos h]
  exact ⟨_, rfl⟩

/-- The activations in a window of `tFAW` cycles are as many as the entries from its start on
allow. -/
structure Tracks (tFAW : Nat) (acts : List Nat) (w : ActWindow) : Prop where
  idx_lt : w.idx < w.size
  window : ∀ x, acts.countP (fun a => x ≤ a ∧ a < x + tFAW) ≤
    ∑ i ∈ range w.size, if x ≤ w.buf i then 1 else 0

theorem tracks_init {tFAW size : Nat} (hsize : 0 < size) : Tracks tFAW [] (init size) where
  idx_lt := hsize
  window := by
    intro x
    exact Nat.zero_le _

/-- An entry that an activation in the window replaces is before the window. -/
theorem Tracks.addActivation {tFAW : Nat} {acts : List Nat} (ht : Tracks tFAW acts w)
    (h : w.addActivation actCycle = some w') (hact : w.minActCycle + tFAW ≤ actCycle) :
    Tracks tFAW (actCycle :: acts) w' := by
  refine ⟨(addActivation_size h ht.idx_lt).2, ?_⟩
  intro x
  have hsum := addActivation_sum h ht.idx_lt (fun b => if x ≤ b then 1 else 0)
  have hold := ht.window x
  rw [List.countP_cons]
  by_cases hin : x ≤ actCycle ∧ actCycle < x + tFAW
  · rw [if_pos (decide_eq_true hin)]
    have hbefore : ¬ x ≤ w.minActCycle := by omega
    simp only [if_neg hbefore, if_pos hin.1] at hsum
    omega
  · rw [if_neg (by simpa using hin)]
    by_cases hx : x ≤ w.minActCycle
    · simp only [if_pos hx, if_pos (show x ≤ actCycle by omega)] at hsum
      omega
    · simp only [if_neg hx] at hsum
      omega

theorem Tracks.five {tFAW : Nat} {acts l : List Nat} (ht : Tracks tFAW acts w) (hsize : w.size = 4)
    (hl : l.Perm acts) (hsorted : l.Pairwise (· ≤ ·)) {i : Nat} (hi : i + 4 < l.length) :
    l[i] + tFAW ≤ l[i + 4] := by
  by_contra hlt
  have hwindow := ht.window l[i]
  have hcap : ∑ j ∈ range w.size, (if l[i] ≤ w.buf j then 1 else 0) ≤ 4 := by
    calc ∑ j ∈ range w.size, (if l[i] ≤ w.buf j then 1 else 0)
        ≤ ∑ _j ∈ range w.size, 1 := by
          apply sum_le_sum
          intro j _
          split
          · exact Nat.le_refl _
          · exact Nat.zero_le _
      _ = 4 := by
        rw [sum_const, card_range, hsize]
        rfl
  have hfive : ((l.drop i).take 5).countP (fun a => l[i] ≤ a ∧ a < l[i] + tFAW) = 5 := by
    have hlen : ((l.drop i).take 5).length = 5 := by
      rw [List.length_take, List.length_drop]
      omega
    refine (List.countP_eq_length.mpr ?_).trans hlen
    intro a ha
    obtain ⟨k, hk, rfl⟩ := List.mem_iff_getElem.mp ha
    rw [List.getElem_take, List.getElem_drop]
    rw [hlen] at hk
    have hmono : ∀ (j k : Nat) (hjk : j ≤ k) (hk : k < l.length), l[j] ≤ l[k] := by
      intro j k hjk hk
      rcases Nat.eq_or_lt_of_le hjk with rfl | hjk
      · exact Nat.le_refl _
      · exact List.pairwise_iff_getElem.mp hsorted j k (by omega) hk hjk
    have hlow := hmono i (i + k) (Nat.le_add_right _ _) (by omega)
    have hhigh := hmono (i + k) (i + 4) (by omega) hi
    exact decide_eq_true ⟨hlow, by omega⟩
  have hsub : ((l.drop i).take 5).Sublist l :=
    (List.take_sublist _ _).trans (List.drop_sublist _ _)
  have hcount := hsub.countP_le (p := fun a => decide (l[i] ≤ a ∧ a < l[i] + tFAW))
  rw [hfive, hl.countP_eq] at hcount
  omega

end ActWindow

end ZSim
