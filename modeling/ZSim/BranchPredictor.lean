import Mathlib.Data.Nat.Bitwise
import Mathlib.Tactic

/-! The two-level branch predictor against a reference that looks at the whole trace. -/

namespace ZSim

/-- Template sizes the static asserts accept. -/
structure PAgSizes where
  NB : Nat
  HB : Nat
  LB : Nat
  few : LB ≤ HB
  many : NB ≤ LB

structure BranchPredictorPAg where
  bhsr : Nat → Nat
  pht : Nat → Nat
  useA2 : Bool

structure Branch where
  branchPc : Nat
  taken : Bool

namespace BranchPredictorPAg

variable (G : PAgSizes)

/-- `(1 << n) - 1` in 32 bits. -/
def mask (n : Nat) : Nat := ((1 <<< n) % 2 ^ 32 + (2 ^ 32 - 1)) % 2 ^ 32

def init : BranchPredictorPAg := ⟨fun _ => 0, fun _ => 1, true⟩

def bhsrIdx (branchPc : Nat) : Nat := (branchPc >>> 1) % 2 ^ 32 &&& mask G.NB

/-- Shift, XOR and mask to fit in the PHT. -/
def phtIdx (hist : Nat) : Nat :=
  (hist ^^^ (hist &&& (2 ^ 32 - 1 - mask G.LB)) >>> (G.HB - G.LB)) &&& mask G.LB

def nextPht (useA2 taken pred : Bool) (pht : Nat) : Nat :=
  if useA2 then if taken then if pred then 3 else pht + 1 else if pred then pht - 1 else 0
  else if taken then 3 else 0

def nextBhsr (hist : Nat) (taken : Bool) : Nat :=
  ((hist <<< 1) % 2 ^ 32 &&& mask G.HB) ||| taken.toNat

/-- Predicts and updates; false if mispredicted. -/
def predict (bp : BranchPredictorPAg) (b : Branch) : BranchPredictorPAg × Bool :=
  let i := bhsrIdx G b.branchPc
  let p := phtIdx G (bp.bhsr i)
  let pred : Bool := 1 < bp.pht p
  ({ bp with
      pht := Function.update bp.pht p (nextPht bp.useA2 b.taken pred (bp.pht p))
      bhsr := Function.update bp.bhsr i (nextBhsr G (bp.bhsr i) b.taken) },
    b.taken == pred)

/-- The predictor after a trace, the last branch first. -/
def after : List Branch → BranchPredictorPAg
  | [] => init
  | b :: trace => ((after trace).predict G b).1

/-- Outcomes as a number, the last one in the lowest bit. -/
def bits : List Bool → Nat
  | [] => 0
  | taken :: earlier => taken.toNat + 2 * bits earlier

def register (branchPc : Nat) : Nat := branchPc / 2 % 2 ^ G.NB

/-- The outcomes of the branches that map to register `i`. -/
def outcomes (i : Nat) (trace : List Branch) : List Bool :=
  (trace.filter fun b => register G b.branchPc = i).map Branch.taken

def history (i : Nat) (trace : List Branch) : Nat := bits ((outcomes G i trace).take G.HB)

/-- The bits of a history from `LB` up, aligned with its highest bit, over the lower ones. -/
def folded (hist : Nat) : Nat :=
  (hist ^^^ (hist >>> G.LB <<< G.LB) >>> (G.HB - G.LB)) % 2 ^ G.LB

def pattern (trace : List Branch) (branchPc : Nat) : Nat :=
  folded G (history G (register G branchPc) trace)

def saturating (counter : Nat) (taken : Bool) : Nat :=
  if taken then min (counter + 1) 3 else counter - 1

/-- The counter of pattern `p`, over the branches that used it. -/
def counter (p : Nat) : List Branch → Nat
  | [] => 1
  | b :: earlier =>
    if pattern G earlier b.branchPc = p then saturating (counter p earlier) b.taken
    else counter p earlier

/-- A prediction after a trace is the reference's. -/
structure Agrees (trace : List Branch) (b : Branch) : Prop where
  bhsrIdx_lt : bhsrIdx G b.branchPc < 2 ^ G.NB
  phtIdx_lt : phtIdx G ((after G trace).bhsr (bhsrIdx G b.branchPc)) < 2 ^ G.LB
  history_eq : (after G trace).bhsr (bhsrIdx G b.branchPc) % 2 ^ G.HB =
    history G (register G b.branchPc) trace
  phtIdx_eq : phtIdx G ((after G trace).bhsr (bhsrIdx G b.branchPc)) = pattern G trace b.branchPc
  counter_eq : (after G trace).pht (pattern G trace b.branchPc) =
    counter G (pattern G trace b.branchPc) trace
  predict_eq : ((after G trace).predict G b).2 =
    (b.taken == decide (1 < counter G (pattern G trace b.branchPc) trace))

variable {G} {n hist : Nat} {taken : Bool} {trace : List Branch}

theorem mask_eq (hn : n ≤ 32) : mask n = 2 ^ n - 1 := by
  have hpos : 0 < 2 ^ n := Nat.two_pow_pos n
  rw [mask, Nat.one_shiftLeft]
  rcases Nat.lt_or_eq_of_le hn with hlt | rfl
  · have hpow : 2 ^ n < 2 ^ 32 := Nat.pow_lt_pow_right (by omega) hlt
    omega
  · omega

theorem and_mask (hn : n ≤ 32) (x : Nat) : x &&& mask n = x % 2 ^ n := by
  rw [mask_eq hn, Nat.and_two_pow_sub_one_eq_mod]

theorem bits_take (n : Nat) (l : List Bool) : bits (l.take n) = bits l % 2 ^ n := by
  induction l generalizing n with
  | nil => simp [bits]
  | cons taken l ih =>
    cases n with
    | zero => simp [bits, Nat.mod_one]
    | succ n =>
      have hbit := taken.toNat_le
      have hlt : bits l % 2 ^ n < 2 ^ n := Nat.mod_lt _ (Nat.two_pow_pos n)
      have hdiv := Nat.div_add_mod (bits l) (2 ^ n)
      have hsplit : taken.toNat + 2 * bits l =
          taken.toNat + 2 * (bits l % 2 ^ n) + 2 ^ (n + 1) * (bits l / 2 ^ n) := by
        rw [Nat.pow_succ', Nat.mul_assoc]
        omega
      rw [List.take_succ_cons, bits, bits, ih, hsplit, Nat.add_mul_mod_self_left]
      symm
      apply Nat.mod_eq_of_lt
      rw [Nat.pow_succ']
      omega

theorem and_not_mask {x : Nat} (hn : n ≤ 32) (hx : x < 2 ^ 32) :
    x &&& (2 ^ 32 - 1 - mask n) = x >>> n <<< n := by
  have hpow : 2 ^ n ≤ 2 ^ 32 := Nat.pow_le_pow_right (by omega) hn
  have hpos : 0 < 2 ^ n := Nat.two_pow_pos n
  have hcompl : 2 ^ 32 - 1 - (2 ^ n - 1) = 2 ^ 32 - ((2 ^ n - 1) + 1) := by omega
  rw [mask_eq hn, hcompl]
  apply Nat.eq_of_testBit_eq
  intro i
  rw [Nat.testBit_and, Nat.testBit_two_pow_sub_succ (by omega), Nat.testBit_two_pow_sub_one,
    Nat.testBit_shiftLeft, Nat.testBit_shiftRight]
  by_cases hi : n ≤ i
  · by_cases hi32 : i < 32
    · simp [hi, hi32, Nat.not_lt.mpr hi, Nat.add_sub_cancel' hi]
    · have hbit : x.testBit i = false :=
        Nat.testBit_lt_two_pow (Nat.lt_of_lt_of_le hx (Nat.pow_le_pow_right (by omega) (by omega)))
      simp [hi, hi32, hbit, Nat.add_sub_cancel' hi]
  · simp [hi, Nat.not_le.mp hi]

theorem bhsrIdx_eq (hn : G.NB ≤ 32) (branchPc : Nat) :
    bhsrIdx G branchPc = register G branchPc := by
  rw [bhsrIdx, and_mask hn, Nat.shiftRight_one, Nat.mod_mod_of_dvd _ (Nat.pow_dvd_pow 2 hn)]
  rfl

theorem phtIdx_eq (h : G.HB ≤ 32) (hlt : hist < 2 ^ 32) :
    phtIdx G hist = folded G hist := by
  have hle : G.LB ≤ 32 := Nat.le_trans G.few h
  rw [phtIdx, folded, and_not_mask hle hlt, and_mask hle]

/-- What the register keeps beyond its `HB` bits is not used: with no history at all there is one
pattern only. -/
theorem folded_mod (h : 0 < G.HB → hist < 2 ^ G.HB) :
    folded G hist = folded G (hist % 2 ^ G.HB) := by
  rcases Nat.eq_zero_or_pos G.HB with hzero | hpos
  · have hLB : G.LB = 0 := Nat.le_zero.mp (hzero ▸ G.few)
    simp [folded, hLB, Nat.mod_one]
  · rw [Nat.mod_eq_of_lt (h hpos)]

theorem nextBhsr_eq (h : G.HB ≤ 32) (hpos : 0 < G.HB) :
    nextBhsr G hist taken = (taken.toNat + 2 * hist) % 2 ^ G.HB := by
  have hbit := taken.toNat_le
  have hpow : 2 ^ G.HB = 2 * 2 ^ (G.HB - 1) := by
    rw [← Nat.pow_succ', Nat.succ_eq_add_one, Nat.sub_add_cancel hpos]
  have hlow : hist % 2 ^ (G.HB - 1) < 2 ^ (G.HB - 1) := Nat.mod_lt _ (Nat.two_pow_pos _)
  have hshift : (hist <<< 1) % 2 ^ 32 % 2 ^ G.HB = (hist % 2 ^ (G.HB - 1)) <<< 1 := by
    rw [Nat.mod_mod_of_dvd _ (Nat.pow_dvd_pow 2 h), Nat.shiftLeft_eq, Nat.shiftLeft_eq, hpow,
      Nat.pow_one, Nat.mul_comm hist, Nat.mul_mod_mul_left, Nat.mul_comm]
  have hdiv := Nat.div_add_mod hist (2 ^ (G.HB - 1))
  have hsplit : taken.toNat + 2 * hist = taken.toNat + 2 * (hist % 2 ^ (G.HB - 1)) +
      2 * 2 ^ (G.HB - 1) * (hist / 2 ^ (G.HB - 1)) := by
    rw [Nat.mul_assoc]
    omega
  have hmod : (taken.toNat + 2 * hist) % 2 ^ G.HB =
      taken.toNat + 2 * (hist % 2 ^ (G.HB - 1)) := by
    rw [hpow, hsplit, Nat.add_mul_mod_self_left]
    exact Nat.mod_eq_of_lt (by omega)
  rw [nextBhsr, and_mask h, hshift, ← Nat.shiftLeft_add_eq_or_of_lt (by omega), hmod,
    Nat.shiftLeft_eq]
  omega

theorem nextBhsr_mod (h : G.HB ≤ 32) :
    nextBhsr G hist taken % 2 ^ G.HB = (taken.toNat + 2 * (hist % 2 ^ G.HB)) % 2 ^ G.HB := by
  rcases Nat.eq_zero_or_pos G.HB with hzero | hpos
  · simp [hzero, Nat.mod_one]
  · rw [nextBhsr_eq h hpos, Nat.mod_mod, Nat.add_mod, Nat.mul_mod]
    simp [Nat.add_mod, Nat.mul_mod]

theorem nextBhsr_lt (h : G.HB ≤ 32) : nextBhsr G hist taken < 2 ^ 32 := by
  rcases Nat.eq_zero_or_pos G.HB with hzero | hpos
  · have hbit := taken.toNat_le
    rw [nextBhsr, and_mask h, hzero]
    simp only [Nat.pow_zero, Nat.mod_one, Nat.zero_or]
    omega
  · rw [nextBhsr_eq h hpos]
    exact Nat.lt_of_lt_of_le (Nat.mod_lt _ (Nat.two_pow_pos _))
      (Nat.pow_le_pow_right (by omega) h)

theorem nextPht_saturating {pht : Nat} (h : pht ≤ 3) :
    nextPht true taken (1 < pht) pht = saturating pht taken := by
  interval_cases pht <;> cases taken <;> rfl

theorem counter_le (p : Nat) (trace : List Branch) : counter G p trace ≤ 3 := by
  induction trace with
  | nil => simp [counter]
  | cons b trace ih =>
    rw [counter]
    split
    · rw [saturating]
      split <;> omega
    · exact ih

theorem history_cons (i : Nat) (b : Branch) : history G i (b :: trace) =
    if register G b.branchPc = i then (b.taken.toNat + 2 * history G i trace) % 2 ^ G.HB
    else history G i trace := by
  rw [history, history, bits_take, bits_take, outcomes]
  by_cases hi : register G b.branchPc = i
  · simp [hi, bits, outcomes, Nat.add_mod, Nat.mul_mod]
  · simp [hi, outcomes]

structure Tracks (G : PAgSizes) (trace : List Branch) : Prop where
  useA2 : (after G trace).useA2 = true
  small : ∀ i, (after G trace).bhsr i < 2 ^ 32
  fits : ∀ i, 0 < G.HB → (after G trace).bhsr i < 2 ^ G.HB
  hist : ∀ i, (after G trace).bhsr i % 2 ^ G.HB = history G i trace
  pht : ∀ p, (after G trace).pht p = counter G p trace

theorem Tracks.idx (h : G.HB ≤ 32) (ht : Tracks G trace) (i : Nat) :
    phtIdx G ((after G trace).bhsr i) = folded G (history G i trace) := by
  rw [phtIdx_eq h (ht.small i), folded_mod (ht.fits i), ht.hist]

theorem tracks (h : G.HB ≤ 32) (trace : List Branch) : Tracks G trace := by
  have hNB : G.NB ≤ 32 := Nat.le_trans G.many (Nat.le_trans G.few h)
  induction trace with
  | nil =>
    refine ⟨rfl, fun _ => Nat.two_pow_pos 32, fun _ _ => Nat.two_pow_pos _, fun i => ?_,
      fun _ => rfl⟩
    simp [after, init, history, outcomes, bits]
  | cons b trace ih =>
    have hi := bhsrIdx_eq hNB b.branchPc
    have hp := ih.idx h (register G b.branchPc)
    have hbhsr : (after G (b :: trace)).bhsr =
        Function.update (after G trace).bhsr (register G b.branchPc)
          (nextBhsr G ((after G trace).bhsr (register G b.branchPc)) b.taken) := by
      simp only [after, predict, hi]
    have hpht : (after G (b :: trace)).pht =
        Function.update (after G trace).pht (pattern G trace b.branchPc)
          (saturating (counter G (pattern G trace b.branchPc) trace) b.taken) := by
      have hle := counter_le (G := G) (pattern G trace b.branchPc) trace
      simp only [after, predict, hi, hp, ih.useA2, ← pattern.eq_def, ih.pht]
      rw [nextPht_saturating hle]
    refine ⟨ih.useA2, fun i => ?_, fun i hpos => ?_, fun i => ?_, fun p => ?_⟩
    · rw [hbhsr, Function.update_apply]
      split
      · exact nextBhsr_lt h
      · exact ih.small i
    · rw [hbhsr, Function.update_apply]
      split
      · rw [nextBhsr_eq h hpos]
        exact Nat.mod_lt _ (Nat.two_pow_pos _)
      · exact ih.fits i hpos
    · rw [hbhsr, Function.update_apply, history_cons]
      by_cases hreg : register G b.branchPc = i
      · rw [if_pos hreg.symm, if_pos hreg, nextBhsr_mod h, ih.hist, hreg]
      · rw [if_neg (Ne.symm hreg), if_neg hreg]
        exact ih.hist i
    · rw [hpht, Function.update_apply, counter]
      by_cases huse : pattern G trace b.branchPc = p
      · rw [if_pos huse.symm, if_pos huse, huse]
      · rw [if_neg (Ne.symm huse), if_neg huse]
        exact ih.pht p

theorem and_mask_lt (hn : n ≤ 32) (x : Nat) : x &&& mask n < 2 ^ n := by
  rw [and_mask hn]
  exact Nat.mod_lt _ (Nat.two_pow_pos n)

/-- With a history that fits the 32-bit registers the predictor is the reference. -/
theorem predict_refines (G : PAgSizes) (h : G.HB ≤ 32) (trace : List Branch) (b : Branch) :
    Agrees G trace b := by
  have hLB : G.LB ≤ 32 := Nat.le_trans G.few h
  have hNB : G.NB ≤ 32 := Nat.le_trans G.many hLB
  have ht := tracks h trace
  have hi := bhsrIdx_eq hNB b.branchPc
  have hp : phtIdx G ((after G trace).bhsr (bhsrIdx G b.branchPc)) =
      pattern G trace b.branchPc := by
    rw [hi, ht.idx h, pattern]
  refine ⟨and_mask_lt hNB _, and_mask_lt hLB _, ?_, hp, ht.pht _, ?_⟩
  · rw [hi, ht.hist]
  · simp only [predict, hp, ht.pht]

def coreSizes : PAgSizes := ⟨11, 18, 14, by decide, by decide⟩

theorem predict_refines_core :
    Agrees coreSizes [⟨0x400110, true⟩, ⟨0x400110, false⟩, ⟨0x401112, true⟩] ⟨0x400110, true⟩ :=
  predict_refines coreSizes (by decide) _ _

/-- The asserts accept 33 bits of history; a 32-bit register forgets the first of 33 outcomes. -/
theorem long_history_lost :
    ¬ Agrees ⟨0, 33, 0, by decide, by decide⟩ (List.replicate 33 ⟨0, true⟩) ⟨0, true⟩ := by
  intro h
  exact absurd h.history_eq (by decide +kernel)

end BranchPredictorPAg

end ZSim
