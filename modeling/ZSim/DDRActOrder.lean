import Mathlib.Data.List.TakeWhile
import ZSim.DDRActWindow

/-! The order of the activation window: read from its oldest entry on, it is sorted after every
call that is not earlier than all the entries it keeps. -/

namespace ZSim

namespace ActWindow

variable {w w' : ActWindow} {actCycle : Nat}

def slot (w : ActWindow) (k : Nat) : Nat := (w.idx + k) % w.size

/-- The entries from `idx` on. -/
def ring (w : ActWindow) : List Nat := (List.range w.size).map fun k => w.buf (w.slot k)

theorem slot_eq (hidx : w.idx < w.size) {k : Nat} (hk : k ≤ w.size) :
    w.slot k = if w.idx + k < w.size then w.idx + k else w.idx + k - w.size := by
  rw [slot]
  split
  · exact Nat.mod_eq_of_lt (by assumption)
  · rw [Nat.mod_eq_sub_mod (by omega), Nat.mod_eq_of_lt (by omega)]

theorem slot_zero (hidx : w.idx < w.size) : w.slot 0 = w.idx := by
  simp [slot, Nat.mod_eq_of_lt hidx]

theorem slot_size (hidx : w.idx < w.size) : w.slot w.size = w.idx := by
  simp [slot, Nat.mod_eq_of_lt hidx]

theorem slot_ne (hidx : w.idx < w.size) {j k : Nat} (hjk : j < k) (hk : k < j + w.size)
    (hle : k ≤ w.size) : w.slot j ≠ w.slot k := by
  rw [slot_eq hidx (by omega), slot_eq hidx hle]
  split <;> split <;> omega

theorem dec_slot (hidx : w.idx < w.size) {k : Nat} (hk : k + 1 ≤ w.size) :
    w.dec (w.slot (k + 1)) = w.slot k := by
  rw [dec, slot_eq hidx hk, slot_eq hidx (by omega)]
  split <;> split <;> split <;> omega

theorem inc_eq_slot (hidx : w.idx < w.size) : w.inc w.idx = w.slot 1 := by
  rw [inc, slot_eq hidx (by omega)]
  split <;> split <;> omega

@[simp] theorem length_ring : w.ring.length = w.size := by
  simp [ring]

@[simp] theorem getElem_ring {k : Nat} (hk : k < w.ring.length) : w.ring[k] = w.buf (w.slot k) := by
  simp [ring]

/-- The loop stops behind an entry that is not later: the later ones have moved up by one. -/
theorem reorder_inserts (hidx : w.idx < w.size) (buf : Nat → Nat) {k m : Nat} (hm : m < k)
    (hk : k ≤ w.size) (hlast : 1 ≤ m ∨ k = m + 1) (hle : buf (w.slot m) ≤ actCycle)
    (hlt : ∀ j, m < j → j < k → actCycle < buf (w.slot j)) :
    ∃ buf', w.reorder actCycle k buf (w.slot k) = (buf', w.slot (m + 1)) ∧
      ∀ j, 1 ≤ j → j ≤ w.size → j ≠ m + 1 →
        buf' (w.slot j) = if m + 1 < j ∧ j ≤ k then buf (w.slot (j - 1)) else buf (w.slot j) := by
  induction k generalizing buf with
  | zero => omega
  | succ k ih =>
    rw [reorder, dec_slot hidx hk]
    by_cases hstop : k = m
    · subst hstop
      rw [if_neg (Nat.not_lt.mpr hle)]
      refine ⟨buf, rfl, fun j _ _ hj => ?_⟩
      rw [if_neg (by omega)]
    · have hne : w.slot k ≠ w.idx := by
        rw [← slot_zero hidx]
        exact (slot_ne hidx (by omega) (by omega) (by omega)).symm
      rw [if_pos (hlt k (by omega) (by omega))]
      simp only [if_neg hne]
      have hkeep (j : Nat) (hj : 1 ≤ j) (hjn : j ≤ w.size) (hjk : j ≠ k + 1) :
          Function.update buf (w.slot (k + 1)) (buf (w.slot k)) (w.slot j) = buf (w.slot j) := by
        refine Function.update_of_ne ?_ _ _
        rcases Nat.lt_or_gt_of_ne hjk with hjk | hjk
        · exact slot_ne hidx hjk (by omega) hk
        · exact (slot_ne hidx hjk (by omega) hjn).symm
      obtain ⟨buf', hbuf, hplace⟩ := ih (Function.update buf (w.slot (k + 1)) (buf (w.slot k)))
        (by omega) (by omega) (by omega) (by rw [hkeep m (by omega) (by omega) (by omega)]; exact hle)
        (fun j hj hjk => by
          rw [hkeep j (by omega) (by omega) (by omega)]
          exact hlt j hj (by omega))
      refine ⟨buf', hbuf, fun j hj hjn hjm => ?_⟩
      rw [hplace j hj hjn hjm]
      by_cases hjk : j = k + 1
      · subst hjk
        rw [if_neg (by omega), if_pos (by omega), Function.update_self, Nat.add_sub_cancel]
      · rw [hkeep j hj hjn hjk]
        by_cases hmoved : m + 1 < j ∧ j ≤ k
        · rw [if_pos hmoved, if_pos (by omega), hkeep (j - 1) (by omega) (by omega) (by omega)]
        · rw [if_neg hmoved, if_neg (by omega)]

/-- Below the place of the oldest entry, which holds a later one by then, the loop goes on until it
is back there. -/
theorem reorder_wraps (hidx : w.idx < w.size) {buf : Nat → Nat} {k : Nat} (hk : 1 ≤ k)
    (hkn : k < w.size) (hlt : ∀ j < k, actCycle < buf (w.slot j)) :
    (w.reorder actCycle k buf (w.slot k)).2 = w.idx ∧
      actCycle < (w.reorder actCycle k buf (w.slot k)).1 (w.slot 1) := by
  induction k generalizing buf with
  | zero => omega
  | succ k ih =>
    rw [reorder, dec_slot hidx (by omega), if_pos (hlt k (Nat.lt_succ_self k))]
    by_cases hzero : k = 0
    · subst hzero
      rw [slot_zero hidx]
      simp only [if_true, Function.update_self, true_and]
      exact slot_zero hidx ▸ hlt 0 (Nat.lt_succ_self 0)
    · have hne : w.slot k ≠ w.idx := by
        rw [← slot_zero hidx]
        exact (slot_ne hidx (by omega) (by omega) (by omega)).symm
      simp only [if_neg hne]
      refine ih (by omega) (by omega) fun j hj => ?_
      rw [Function.update_of_ne (slot_ne hidx (by omega) (by omega) (by omega))]
      exact hlt j (by omega)

theorem addActivation_some (h : w.addActivation actCycle = some w') :
    w.buf w.idx ≤ actCycle ∧
      w'.buf = Function.update (w.reorder actCycle w.size w.buf w.idx).1
        (w.reorder actCycle w.size w.buf w.idx).2 actCycle ∧
      w'.idx = w.inc w.idx ∧ w'.size = w.size := by
  rw [addActivation] at h
  split at h
  · cases h
    exact ⟨by assumption, rfl, rfl, rfl⟩
  · cases h

theorem slot_after (h : w.addActivation actCycle = some w') (hidx : w.idx < w.size) (k : Nat) :
    w'.slot k = w.slot (k + 1) := by
  obtain ⟨-, -, hidx', hsize⟩ := addActivation_some h
  rw [slot, hidx', hsize, inc_eq_slot hidx, slot, slot, Nat.mod_add_mod]
  congr 1
  omega

/-- Sorted entries split into those that are not later and those that are. -/
theorem sorted_split {l : List Nat} (hl : l.Pairwise (· ≤ ·)) (c : Nat) :
    ∃ lower upper, l = lower ++ upper ∧ (∀ x ∈ lower, x ≤ c) ∧ ∀ x ∈ upper, c < x := by
  induction l with
  | nil => exact ⟨[], [], rfl, by simp, by simp⟩
  | cons x l ih =>
    obtain ⟨hx, hl⟩ := List.pairwise_cons.mp hl
    obtain ⟨lower, upper, hsplit, hlower, hupper⟩ := ih hl
    by_cases hc : x ≤ c
    · exact ⟨x :: lower, upper, by simp [hsplit], by simpa [hc] using hlower, hupper⟩
    · refine ⟨[], x :: l, rfl, by simp, fun y hy => ?_⟩
      rcases List.mem_cons.mp hy with rfl | hy
      · omega
      · have := hx y hy
        omega

theorem ring_insert (h : w.addActivation actCycle = some w') (hidx : w.idx < w.size)
    {lower upper : List Nat} (hsplit : w.ring.tail = lower ++ upper)
    (hlower : ∀ x ∈ lower, x ≤ actCycle) (hupper : ∀ x ∈ upper, actCycle < x)
    (hlast : lower ≠ [] ∨ upper = []) : w'.ring = lower ++ actCycle :: upper := by
  obtain ⟨hmin, hbuf, -, hsize⟩ := addActivation_some h
  have hlen : lower.length + upper.length + 1 = w.size := by
    have := congrArg List.length hsplit
    simp only [List.length_tail, length_ring, List.length_append] at this
    omega
  have hentry (k : Nat) (hk : k + 1 < w.size) :
      (lower ++ upper)[k]? = some (w.buf (w.slot (k + 1))) := by
    rw [← hsplit, List.getElem?_tail, List.getElem?_eq_getElem (by simpa using hk), getElem_ring]
  have hle : w.buf (w.slot lower.length) ≤ actCycle := by
    cases hm : lower.length with
    | zero => rwa [slot_zero hidx]
    | succ m =>
      have hx := hentry m (by omega)
      rw [List.getElem?_append_left (by omega)] at hx
      exact hlower _ (List.mem_of_getElem? hx)
  have hlt : ∀ j, lower.length < j → j < w.size → actCycle < w.buf (w.slot j) := by
    intro j hj hjn
    obtain ⟨j, rfl⟩ := Nat.exists_eq_succ_of_ne_zero (by omega : j ≠ 0)
    have hx := hentry j hjn
    rw [List.getElem?_append_right (by omega)] at hx
    exact hupper _ (List.mem_of_getElem? hx)
  have hstop : 1 ≤ lower.length ∨ w.size = lower.length + 1 := by
    rcases hlast with hne | hnil
    · exact .inl (List.length_pos_of_ne_nil hne)
    · simp only [hnil, List.length_nil] at hlen
      omega
  obtain ⟨buf', hre, hplace⟩ := reorder_inserts hidx w.buf (by omega) (Nat.le_refl _) hstop hle hlt
  rw [slot_size hidx] at hre
  rw [hre] at hbuf
  apply List.ext_getElem?
  intro k
  by_cases hk : k < w.size
  · have hring : w'.ring[k]? =
        some (Function.update buf' (w.slot (lower.length + 1)) actCycle (w.slot (k + 1))) := by
      rw [List.getElem?_eq_getElem (by simpa [hsize] using hk), getElem_ring, hbuf,
        slot_after h hidx]
    rw [hring]
    rcases Nat.lt_trichotomy k lower.length with hkm | rfl | hkm
    · rw [Function.update_of_ne (slot_ne hidx (by omega) (by omega) (by omega)),
        hplace _ (by omega) hk (by omega), if_neg (by omega), ← hentry k (by omega),
        List.getElem?_append_left hkm, List.getElem?_append_left hkm]
    · simp
    · rw [Function.update_of_ne (slot_ne hidx (by omega) (by omega) (by omega)).symm,
        hplace _ (by omega) hk (by omega), if_pos (by omega)]
      obtain ⟨k, rfl⟩ := Nat.exists_eq_succ_of_ne_zero (by omega : k ≠ 0)
      rw [Nat.succ_eq_add_one, Nat.add_sub_cancel, ← hentry k (by omega),
        List.getElem?_append_right (by omega), List.getElem?_append_right (by omega),
        Nat.succ_sub (by omega), List.getElem?_cons_succ]
  · rw [List.getElem?_eq_none (by simpa [hsize] using hk),
      List.getElem?_eq_none (by simp only [List.length_append, List.length_cons]; omega)]

/-- An activation before all the entries but the oldest comes to stand behind them. -/
theorem ring_unsorted (h : w.addActivation actCycle = some w') (hidx : w.idx < w.size)
    (hsorted : w.ring.Pairwise (· ≤ ·)) (hlt : actCycle < w.buf (w.inc w.idx)) :
    ¬ w'.ring.Pairwise (· ≤ ·) := by
  obtain ⟨hmin, hbuf, -, hsize⟩ := addActivation_some h
  rw [inc_eq_slot hidx] at hlt
  have htwo : 1 < w.size := by
    by_contra hone
    rw [show 1 = w.size by omega, slot_size hidx] at hlt
    omega
  have hall (k : Nat) (hk : 1 ≤ k) (hkn : k < w.size) : actCycle < w.buf (w.slot k) := by
    rcases Nat.eq_or_lt_of_le hk with rfl | hk
    · exact hlt
    · have hle := List.pairwise_iff_getElem.mp hsorted 1 k (by simpa) (by simpa) hk
      rw [getElem_ring, getElem_ring] at hle
      omega
  obtain ⟨n, hn⟩ : ∃ n, w.size = n + 1 := ⟨w.size - 1, by omega⟩
  have hne : w.slot n ≠ w.idx := by
    rw [← slot_zero hidx]
    exact (slot_ne hidx (by omega) (by omega) (by omega)).symm
  have hlast : w.slot (n + 1) = w.slot 0 := by rw [← hn, slot_size hidx, slot_zero hidx]
  -- the first move puts a later entry in the place of the oldest
  have hmoved : ∀ j < n,
      actCycle < Function.update w.buf (w.slot (n + 1)) (w.buf (w.slot n)) (w.slot j) := by
    intro j hj
    by_cases hzero : j = 0
    · rw [hzero, hlast, Function.update_self]
      exact hall n (by omega) (by omega)
    · rw [Function.update_of_ne (slot_ne hidx (by omega) (by omega) (by omega))]
      exact hall j (by omega) (by omega)
  have hre : w.reorder actCycle w.size w.buf w.idx = w.reorder actCycle n
      (Function.update w.buf (w.slot (n + 1)) (w.buf (w.slot n))) (w.slot n) := by
    conv_lhs => rw [hn, ← slot_size hidx, hn]
    rw [reorder, dec_slot hidx (by omega), if_pos (hall n (by omega) (by omega))]
    simp only [if_neg hne]
  obtain ⟨hback, hfirst⟩ := reorder_wraps hidx (by omega) (by omega) hmoved
  rw [hre, hback] at hbuf
  intro hpair
  have hends := List.pairwise_iff_getElem.mp hpair 0 (w.size - 1) (by simp [hsize]; omega)
    (by simp [hsize]; omega) (by omega)
  rw [getElem_ring, getElem_ring, slot_after h hidx, slot_after h hidx, hbuf,
    show w.size - 1 + 1 = w.size by omega, slot_size hidx, Function.update_self,
    Function.update_of_ne (by
      rw [← slot_zero hidx]
      exact (slot_ne hidx (by omega) (by omega) (by omega)).symm)] at hends
  exact absurd hends (Nat.not_le.mpr hfirst)

/-- What a call should do: the ring stays sorted, with the new activation in place of the oldest
entry, and `minActCycle` is the earliest. -/
structure InOrder (w : ActWindow) (actCycle : Nat) (w' : ActWindow) : Prop where
  sorted : w'.ring.Pairwise (· ≤ ·)
  replaced : w'.ring.Perm (actCycle :: w.ring.tail)
  earliest : ∀ x ∈ w'.ring, w'.minActCycle ≤ x

/-- The new activation is not earlier than all the entries but the oldest. -/
def AfterSecond (w : ActWindow) (actCycle : Nat) : Prop :=
  w.idx < w.size ∧ w.buf (w.inc w.idx) ≤ actCycle

theorem minActCycle_le (hidx : w.idx < w.size) (hsorted : w.ring.Pairwise (· ≤ ·)) :
    ∀ x ∈ w.ring, w.minActCycle ≤ x := by
  intro x hx
  obtain ⟨k, hk, rfl⟩ := List.mem_iff_getElem.mp hx
  rcases Nat.eq_zero_or_pos k with rfl | hpos
  · rw [getElem_ring, slot_zero hidx]
    exact Nat.le_refl _
  · have hle := List.pairwise_iff_getElem.mp hsorted 0 k (by omega) hk hpos
    rwa [getElem_ring, slot_zero hidx] at hle

theorem inOrder_iff (h : w.addActivation actCycle = some w') (hidx : w.size ≠ 0 → w.idx < w.size)
    (hsorted : w.ring.Pairwise (· ≤ ·)) : InOrder w actCycle w' ↔ AfterSecond w actCycle := by
  obtain ⟨hmin, -, -, hsize⟩ := addActivation_some h
  constructor
  · intro ho
    have hlen := ho.replaced.length_eq
    simp only [length_ring, List.length_cons, List.length_tail, hsize] at hlen
    have hidx := hidx (by omega)
    refine ⟨hidx, ?_⟩
    by_contra hlt
    exact ring_unsorted h hidx hsorted (Nat.not_le.mp hlt) ho.sorted
  · rintro ⟨hidx, hsecond⟩
    obtain ⟨lower, upper, hsplit, hlower, hupper⟩ :=
      sorted_split (hsorted.sublist (List.tail_sublist _)) actCycle
    have hlast : lower ≠ [] ∨ upper = [] := by
      by_contra hnot
      obtain ⟨rfl, hupp⟩ : lower = [] ∧ upper ≠ [] := by simpa using hnot
      obtain ⟨x, upper, rfl⟩ := List.exists_cons_of_ne_nil hupp
      have hlen := congrArg List.length hsplit
      have hx := congrArg (·[0]?) hsplit
      simp only [List.length_tail, length_ring, List.nil_append, List.length_cons] at hlen
      simp only [List.getElem?_tail, List.nil_append, List.getElem?_cons_zero] at hx
      rw [List.getElem?_eq_getElem (by rw [length_ring]; omega), getElem_ring, Option.some_inj] at hx
      rw [inc_eq_slot hidx, hx] at hsecond
      exact absurd (hupper x (by simp)) (Nat.not_lt.mpr hsecond)
    have hring := ring_insert h hidx hsplit hlower hupper hlast
    have hpair : w'.ring.Pairwise (· ≤ ·) := by
      have htail := hsorted.sublist (List.tail_sublist _)
      rw [hsplit, List.pairwise_append] at htail
      rw [hring, List.pairwise_append, List.pairwise_cons]
      refine ⟨htail.1, ⟨fun x hx => Nat.le_of_lt (hupper x hx), htail.2.1⟩, fun x hx y hy => ?_⟩
      rcases List.mem_cons.mp hy with rfl | hy
      · exact hlower x hx
      · exact htail.2.2 x hx y hy
    refine ⟨hpair, ?_, minActCycle_le (addActivation_size h hidx).2 hpair⟩
    rw [hring, hsplit]
    exact List.perm_middle

def run (w : ActWindow) (acts : List Nat) : Option ActWindow := acts.foldlM addActivation w

/-- `P` holds of every call in the run of `acts`, with the windows before and after it. -/
def EveryCall (size : Nat) (acts : List Nat) (P : ActWindow → Nat → ActWindow → Prop) : Prop :=
  ∀ earlier actCycle later w w', acts = earlier ++ actCycle :: later →
    (init size).run earlier = some w → w.addActivation actCycle = some w' → P w actCycle w'

theorem run_concat {acts : List Nat} {w'' : ActWindow}
    (h : w.run (acts ++ [actCycle]) = some w'') :
    ∃ w', w.run acts = some w' ∧ w'.addActivation actCycle = some w'' := by
  rw [run, List.foldlM_append] at h
  obtain ⟨w', hw', h⟩ := Option.bind_eq_some_iff.mp h
  exact ⟨w', hw', by simpa using h⟩

/-- Along a run, every call leaves the ring sorted if those that are as `P` says do. -/
theorem sorted_of_every {size : Nat} {acts : List Nat} {P : ActWindow → Nat → ActWindow → Prop}
    (hP : EveryCall size acts P)
    (hstep : ∀ w c w', w.addActivation c = some w' → (w.size ≠ 0 → w.idx < w.size) →
      w.ring.Pairwise (· ≤ ·) → P w c w' → w'.ring.Pairwise (· ≤ ·))
    {earlier later : List Nat} (hacts : acts = earlier ++ later)
    (hrun : (init size).run earlier = some w) :
    w.ring.Pairwise (· ≤ ·) ∧ (w.size ≠ 0 → w.idx < w.size) := by
  induction earlier using List.reverseRecOn generalizing later w with
  | nil =>
    cases hrun
    refine ⟨List.pairwise_iff_getElem.mpr fun i j hi hj _ => ?_, Nat.pos_of_ne_zero⟩
    rw [getElem_ring, getElem_ring]
    exact Nat.le_refl 0
  | append_singleton earlier c ih =>
    obtain ⟨w₁, hrun₁, hadd⟩ := run_concat hrun
    rw [List.append_assoc] at hacts
    obtain ⟨hsorted, hidx⟩ := ih hacts hrun₁
    refine ⟨hstep _ _ _ hadd hidx hsorted (hP _ _ _ _ _ hacts hrun₁ hadd), fun hne => ?_⟩
    obtain ⟨-, -, -, hsize⟩ := addActivation_some hadd
    exact (addActivation_size hadd (hidx (hsize ▸ hne))).2

/-- The window stays in order through a run exactly when no activation is earlier than all the
entries that it leaves in the window. -/
theorem window_in_order_iff (size : Nat) (acts : List Nat) :
    EveryCall size acts InOrder ↔ EveryCall size acts fun w actCycle _ => AfterSecond w actCycle := by
  constructor
  · intro h earlier c later w w' hacts hrun hadd
    obtain ⟨hsorted, hidx⟩ :=
      sorted_of_every h (fun _ _ _ _ _ _ ho => ho.sorted) hacts hrun
    exact (inOrder_iff hadd hidx hsorted).mp (h _ _ _ _ _ hacts hrun hadd)
  · intro h earlier c later w w' hacts hrun hadd
    obtain ⟨hsorted, hidx⟩ := sorted_of_every h
      (fun _ _ _ hadd hidx hsorted hc => ((inOrder_iff hadd hidx hsorted).mpr hc).sorted) hacts hrun
    exact (inOrder_iff hadd hidx hsorted).mpr (h _ _ _ _ _ hacts hrun hadd)

/-- Cycle 15 comes in front of 20, 30 and 40, and stands behind them. -/
theorem early_activation_misplaced : ¬ ∀ size acts, EveryCall size acts InOrder := by
  intro h
  obtain ⟨w, hw⟩ : ∃ w, (init 4).run [10, 20, 30, 40] = some w := ⟨_, rfl⟩
  obtain ⟨w', hw'⟩ : ∃ w', w.addActivation 15 = some w' := ⟨_, by cases hw; rfl⟩
  have ho := h 4 [10, 20, 30, 40, 15] [10, 20, 30, 40] 15 [] w w' rfl hw hw'
  have hring : w'.ring = [40, 20, 30, 15] := by
    cases hw
    cases hw'
    rfl
  exact absurd (hring ▸ ho.sorted) (by decide)

end ActWindow

end ZSim
