import Mathlib.Tactic
import ZSim.BinaryFloat

/-! The dynamic thresholds of CARE over any sequence of misses. -/

namespace ZSim

/-- The DTRM variables of `CAREReplPolicy`. -/
structure DTRMVars where
  TMC : Nat
  miss_period : Nat
  current_period : Nat
  PMC_high : Nat
  PMC_low : Nat

namespace DTRMVars

def init : DTRMVars where
  TMC := 0
  miss_period := 16000
  current_period := 0
  PMC_high := 350
  PMC_low := 50

def count (v : DTRMVars) (mshrPMC : ℚ) : DTRMVars :=
  { v with
    current_period := (v.current_period + 1) % 2 ^ 32
    TMC := if v.PMC_high ≤ mshrPMC then (v.TMC + 1) % 2 ^ 32 else v.TMC }

/-- The costly misses as a share of the period. -/
def costly (v : DTRMVars) : ℚ :=
  BinaryFloat.float (BinaryFloat.float v.TMC / BinaryFloat.float v.current_period)

/-- Few costly misses: the thresholds go down. -/
def lowers (v : DTRMVars) : Bool :=
  ¬BinaryFloat.double (5 / 100) < v.costly ∧ v.costly < BinaryFloat.double (5 / 1000) ∧
    ¬v.PMC_low ≤ 10

def adjust (v : DTRMVars) : DTRMVars :=
  if BinaryFloat.double (5 / 100) < v.costly then
    { v with
      PMC_high := (v.PMC_high + 70) % 2 ^ 32
      PMC_low := (v.PMC_low + 10) % 2 ^ 32 }
  else if v.lowers then
    { v with
      PMC_high := (v.PMC_high + 2 ^ 32 - 70) % 2 ^ 32
      PMC_low := (v.PMC_low + 2 ^ 32 - 10) % 2 ^ 32 }
  else v

def endsPeriod (v : DTRMVars) : Bool := v.miss_period ≤ v.current_period

def DTRM (v : DTRMVars) (mshrPMC : ℚ) : DTRMVars :=
  let v := v.count mshrPMC
  if v.endsPeriod then { v.adjust with current_period := 0, TMC := 0 } else v

def run (pmcs : List ℚ) : DTRMVars := pmcs.foldl DTRM init

/-- How often `PMC_high` can go up. -/
def periods : Nat := (2 ^ 32 - 1 - init.PMC_high) / 70

structure Ordered (v : DTRMVars) : Prop where
  high : v.PMC_high = 7 * v.PMC_low
  low : 10 ≤ v.PMC_low
  costly : v.TMC ≤ v.current_period
  period : v.current_period < v.miss_period

/-- What holds after `n` calls. -/
structure Inv (n : Nat) (v : DTRMVars) : Prop extends Ordered v where
  miss_period : v.miss_period = 16000
  step : v.PMC_low % 10 = 0
  calls : n % 16000 = v.current_period
  bound : v.PMC_low ≤ 50 + 10 * (n / 16000)

variable {n : Nat} {v : DTRMVars} {mshrPMC : ℚ}

theorem Inv.init : Inv 0 init := by
  refine ⟨⟨?_, ?_, ?_, ?_⟩, ?_, ?_, ?_, ?_⟩ <;> simp [DTRMVars.init]

theorem Inv.count_eq (h : Inv n v) :
    v.count mshrPMC = { v with
      current_period := v.current_period + 1
      TMC := if v.PMC_high ≤ mshrPMC then v.TMC + 1 else v.TMC } := by
  have hperiod := h.period
  have hcostly := h.costly
  have hmiss := h.miss_period
  rw [count, Nat.mod_eq_of_lt (by omega), Nat.mod_eq_of_lt (by omega)]

theorem Inv.count_TMC (h : Inv n v) : (v.count mshrPMC).TMC ≤ v.current_period + 1 := by
  have hcostly := h.costly
  rw [h.count_eq]
  dsimp only
  split <;> omega

theorem lowers_fits (hhigh : v.PMC_high = 7 * v.PMC_low) (hstep : v.PMC_low % 10 = 0)
    (h : v.lowers = true) : 20 ≤ v.PMC_low ∧ 140 ≤ v.PMC_high := by
  simp only [lowers, decide_eq_true_eq] at h
  omega

theorem wrap_sub {x k : Nat} (hk : k ≤ x) (hx : x < 2 ^ 32) : (x + 2 ^ 32 - k) % 2 ^ 32 = x - k := by
  omega

theorem adjust_low (hhigh : v.PMC_high = 7 * v.PMC_low) (hstep : v.PMC_low % 10 = 0)
    (hlow : 10 ≤ v.PMC_low) (hfits : v.PMC_high + 70 < 2 ^ 32) :
    v.adjust.PMC_high = 7 * v.adjust.PMC_low ∧ v.adjust.PMC_low % 10 = 0 ∧
      10 ≤ v.adjust.PMC_low ∧ v.adjust.PMC_low ≤ v.PMC_low + 10 := by
  rw [adjust]
  by_cases hraise : BinaryFloat.double (5 / 100) < v.costly
  · simp only [if_pos hraise]
    rw [Nat.mod_eq_of_lt hfits, Nat.mod_eq_of_lt (by omega)]
    omega
  · by_cases hlowers : v.lowers = true
    · have hge := lowers_fits hhigh hstep hlowers
      simp only [if_neg hraise, if_pos hlowers]
      rw [wrap_sub (by omega) (by omega), wrap_sub (by omega) (by omega)]
      omega
    · simp only [if_neg hraise, if_neg hlowers]
      omega

theorem adjust_miss_period : v.adjust.miss_period = v.miss_period := by
  rw [adjust]
  split
  · rfl
  · split <;> rfl

theorem Inv.DTRM (h : Inv n v) (hn : (n + 1) / 16000 ≤ periods) :
    Inv (n + 1) (v.DTRM mshrPMC) := by
  have hhigh := h.high
  have hlow := h.low
  have hmiss := h.miss_period
  have hperiod := h.period
  have hstep := h.step
  have hcalls := h.calls
  have hbound := h.bound
  have hTMC := @Inv.count_TMC n v mshrPMC h
  have hcount := @Inv.count_eq n v mshrPMC h
  by_cases hends : (v.count mshrPMC).endsPeriod = true
  · have hend : 16000 ≤ v.current_period + 1 := by
      simpa [endsPeriod, hcount, hmiss] using hends
    -- the period that ends here is one of those that fit
    have hfits : v.PMC_high + 70 < 2 ^ 32 := by
      simp only [periods, DTRMVars.init] at hn
      omega
    have hadjust := @adjust_low (v.count mshrPMC) (by simpa [hcount] using hhigh)
      (by simpa [hcount] using hstep) (by simpa [hcount] using hlow) (by simpa [hcount] using hfits)
    have hsame : (v.count mshrPMC).PMC_low = v.PMC_low := by rw [hcount]
    have hkeep : (v.count mshrPMC).adjust.miss_period = 16000 := by
      rw [adjust_miss_period, hcount, hmiss]
    rw [hsame] at hadjust
    obtain ⟨h₁, h₂, h₃, h₄⟩ := hadjust
    have heq : v.DTRM mshrPMC =
        { (v.count mshrPMC).adjust with current_period := 0, TMC := 0 } := if_pos hends
    rw [heq]
    refine ⟨⟨h₁, h₃, le_rfl, ?_⟩, hkeep, h₂, ?_, ?_⟩
    · show 0 < (v.count mshrPMC).adjust.miss_period
      omega
    · show (n + 1) % 16000 = 0
      omega
    · show (v.count mshrPMC).adjust.PMC_low ≤ _
      omega
  · have hnot : ¬16000 ≤ v.current_period + 1 := by
      simpa [endsPeriod, hcount, hmiss] using hends
    have heq : v.DTRM mshrPMC = v.count mshrPMC := if_neg hends
    rw [heq]
    rw [hcount] at hTMC ⊢
    exact ⟨⟨hhigh, hlow, hTMC, by simp only; omega⟩, hmiss, hstep, by simp only; omega,
      by simp only; omega⟩

theorem run_append (pmcs : List ℚ) : run (pmcs ++ [mshrPMC]) = (run pmcs).DTRM mshrPMC := by
  simp [run]

theorem run_inv (pmcs : List ℚ) (h : pmcs.length / 16000 ≤ periods) :
    Inv pmcs.length (run pmcs) := by
  induction pmcs using List.reverseRecOn with
  | nil => exact Inv.init
  | append_singleton pmcs pmc ih =>
    rw [run_append, List.length_append, List.length_singleton]
    rw [List.length_append, List.length_singleton] at h
    exact (ih (by omega)).DTRM h

/-- Over any misses that end no more periods than `PMC_high` can go up, the thresholds keep their
order and no subtraction wraps. -/
theorem thresholds_ordered (pmcs : List ℚ) (h : pmcs.length / 16000 ≤ periods) :
    Ordered (run pmcs) ∧ (run pmcs).PMC_low < (run pmcs).PMC_high ∧
      ∀ mshrPMC, ((run pmcs).count mshrPMC).lowers = true →
        10 ≤ ((run pmcs).count mshrPMC).PMC_low ∧ 70 ≤ ((run pmcs).count mshrPMC).PMC_high := by
  have hinv := run_inv pmcs h
  have hhigh := hinv.high
  have hlow := hinv.low
  refine ⟨hinv.toOrdered, by omega, fun mshrPMC hlowers => ?_⟩
  have hge := lowers_fits (v := (run pmcs).count mshrPMC) hhigh hinv.step hlowers
  omega

theorem run_replicate_succ (k : Nat) (mshrPMC : ℚ) :
    run (List.replicate (k + 1) mshrPMC) = (run (List.replicate k mshrPMC)).DTRM mshrPMC := by
  rw [List.replicate_succ', run_append]

/-- Within the first period, all misses costly. -/
theorem run_costly {k : Nat} (hk : k < 16000) :
    run (List.replicate k 400) = ⟨k, 16000, k, 350, 50⟩ := by
  induction k with
  | zero => rfl
  | succ k ih =>
    have hcount : (⟨k, 16000, k, 350, 50⟩ : DTRMVars).count 400 =
        ⟨k + 1, 16000, k + 1, 350, 50⟩ := by
      have hwrap : (k + 1) % 2 ^ 32 = k + 1 := Nat.mod_eq_of_lt (by omega)
      simp only [count, hwrap]
      rw [if_pos (by norm_num)]
    rw [run_replicate_succ, ih (by omega), DTRM, hcount, if_neg]
    simp only [endsPeriod, decide_eq_true_eq]
    omega

/-- A period of costly misses raises both thresholds. -/
theorem thresholds_ordered_raised : (run (List.replicate 16000 400)).PMC_low = 60 ∧
    (run (List.replicate 16000 400)).PMC_high = 420 ∧ Ordered (run (List.replicate 16000 400)) ∧
      ∀ mshrPMC, ((run (List.replicate 16000 400)).count mshrPMC).lowers = true →
        70 ≤ ((run (List.replicate 16000 400)).count mshrPMC).PMC_high := by
  have hlast : run (List.replicate 16000 400) = DTRM ⟨15999, 16000, 15999, 350, 50⟩ 400 := by
    rw [← run_costly (by decide), run_replicate_succ]
  obtain ⟨hordered, -, hlowers⟩ := thresholds_ordered (List.replicate 16000 400) (by
    rw [List.length_replicate]
    decide)
  refine ⟨?_, ?_, hordered, fun mshrPMC h => (hlowers mshrPMC h).2⟩ <;> rw [hlast]
  · decide +kernel
  · decide +kernel

end DTRMVars

end ZSim
