import ZSim.CareDTRM
import ZSim.CareRepl
import ZSim.FirstBest

/-! CARE under hits, replacements, and the PMCs that misses bring back, in any order. -/

namespace ZSim

/-- The policy with its thresholds and its number of lines. -/
structure CAREState where
  rp : CAREReplPolicy
  vars : DTRMVars
  numLines : Nat

namespace CAREReplPolicy

/-- One step of an SHT entry's `pd`, by the PMC state of a line. -/
def shtStep (pmcs : Nat) (e : SHTEntry) : SHTEntry :=
  if pmcs = 3 ∧ e.pd < 7 then { e with pd := e.pd + 1 }
  else if pmcs = 0 ∧ 0 < e.pd then { e with pd := e.pd - 1 }
  else e

end CAREReplPolicy

namespace CAREState

open CAREReplPolicy

def init (numLines shtEntries : Nat) : CAREState := ⟨.init shtEntries, .init, numLines⟩

def quantizePMC (s : CAREState) (mshrPMC : ℚ) (id : Nat) : CAREState :=
  if id < s.numLines then
    let pmcs :=
      if mshrPMC < s.vars.PMC_low then 0
      else if s.vars.PMC_high < mshrPMC then 3
      else 1
    { s with rp := { s.rp with pmcs := Function.update s.rp.pmcs id pmcs } }
  else s

def shtPMCUpdate (s : CAREState) (singleLineAddr : Address) (id : Nat) : CAREState :=
  if id < s.numLines then
    let idx := s.rp.hashAddr singleLineAddr
    { s with rp := { s.rp with
        sht := Function.update s.rp.sht idx (shtStep (s.rp.pmcs id) (s.rp.sht idx)) } }
  else s

inductive Call where
  | update (id : Nat)
  | startReplacement (lineAddr : Address)
  | recordCandidate (id : Nat)
  | replaced (id : Nat)
  | quantizePMC (mshrPMC : ℚ) (id : Nat)
  | shtPMCUpdate (singleLineAddr : Address) (id : Nat)
  | DTRM (mshrPMC : ℚ)

def step (s : CAREState) : Call → CAREState
  | .update id => { s with rp := s.rp.update id }
  | .startReplacement lineAddr => { s with rp := s.rp.startReplacement lineAddr }
  | .recordCandidate id => { s with rp := s.rp.recordCandidate id }
  | .replaced id => { s with rp := s.rp.replaced id }
  | .quantizePMC mshrPMC id => s.quantizePMC mshrPMC id
  | .shtPMCUpdate singleLineAddr id => s.shtPMCUpdate singleLineAddr id
  | .DTRM mshrPMC => { s with vars := s.vars.DTRM mshrPMC }

def run (numLines shtEntries : Nat) (calls : List Call) : CAREState :=
  calls.foldl step (init numLines shtEntries)

end CAREState

namespace CAREReplPolicy

/-- The counters of an SHT entry do not exceed their bounds. -/
def Saturated (e : SHTEntry) : Prop := e.rc ≤ 7 ∧ e.pd ≤ 7

/-- The bounds of the counters, and the cached eviction priorities. -/
structure Metadata (rp : CAREReplPolicy) : Prop where
  rc : ∀ id, rp.rc id ≤ 7
  pd : ∀ id, rp.pd id ≤ 7
  sht : ∀ idx, Saturated (rp.sht idx)
  epv : ∀ id, rp.epv id = computeEPV (rp.rc id) (rp.pd id)

/-- Largest `epv` first, then smallest `rc`, then smallest `pd`. -/
def evictionKey (rp : CAREReplPolicy) (id : Nat) : ℕᵒᵈ ×ₗ ℕ ×ₗ ℕ :=
  toLex (OrderDual.toDual (rp.epv id), toLex (rp.rc id, rp.pd id))

variable {rp : CAREReplPolicy} {id : Nat}

theorem Saturated.blend {pd : Nat} {e : SHTEntry} (h : Saturated e) : Saturated (blend pd e) := by
  obtain ⟨hrc, hpd⟩ := h
  by_cases hup : e.pd < pd ∧ e.pd < CARE_PD_MAX
  · simp only [CAREReplPolicy.blend, if_pos hup, Saturated]
    simp only [CARE_PD_MAX] at hup
    omega
  · by_cases hdown : pd < e.pd ∧ 0 < e.pd
    · simp only [CAREReplPolicy.blend, if_neg hup, if_pos hdown, Saturated]
      omega
    · simp only [CAREReplPolicy.blend, if_neg hup, if_neg hdown, Saturated, hrc, hpd, and_self]

theorem Saturated.shtStep {pmcs : Nat} {e : SHTEntry} (h : Saturated e) :
    Saturated (shtStep pmcs e) := by
  obtain ⟨hrc, hpd⟩ := h
  by_cases hup : pmcs = 3 ∧ e.pd < 7
  · simp only [CAREReplPolicy.shtStep, if_pos hup, Saturated]
    omega
  · by_cases hdown : pmcs = 0 ∧ 0 < e.pd
    · simp only [CAREReplPolicy.shtStep, if_neg hup, if_pos hdown, Saturated]
      omega
    · simp only [CAREReplPolicy.shtStep, if_neg hup, if_neg hdown, Saturated, hrc, hpd, and_self]

theorem forall_update {α : Type} {f : Nat → α} {i : Nat} {x : α} (P : α → Prop)
    (hf : ∀ j, P (f j)) (hx : P x) (j : Nat) : P (Function.update f i x j) := by
  by_cases h : j = i
  · simpa [h] using hx
  · simpa [h] using hf j

namespace Metadata

theorem init (shtEntries : Nat) : Metadata (.init shtEntries) := by
  refine ⟨?_, ?_, ?_, ?_⟩ <;> simp [CAREReplPolicy.init, computeEPV, Saturated]

theorem epv_update (h : Metadata rp) {rcVal pdVal : Nat} (j : Nat) :
    Function.update rp.epv id (computeEPV rcVal pdVal) j =
      computeEPV (Function.update rp.rc id rcVal j) (Function.update rp.pd id pdVal j) := by
  by_cases hj : j = id
  · simp [hj]
  · simp [hj, h.epv j]

theorem update (h : Metadata rp) (id : Nat) : Metadata (rp.update id) := by
  by_cases hbit : rp.rBit id = false
  · simp only [CAREReplPolicy.update, if_pos hbit]
    have hline := h.sht (rp.hashAddr (rp.lineAddr id))
    have hepv := @epv_update rp id h (satInc (rp.rc id)) (rp.pd id)
    rw [Function.update_eq_self] at hepv
    exact ⟨forall_update (· ≤ 7) h.rc (satInc_le (h.rc id)), h.pd,
      forall_update Saturated h.sht ⟨satInc_le hline.1, hline.2⟩, hepv⟩
  · simpa only [CAREReplPolicy.update, if_neg hbit] using h

theorem decayed (h : Metadata rp) (id idx : Nat) : Saturated (rp.decayed id idx) := by
  have hline := h.sht (rp.hashAddr (rp.lineAddr id))
  rw [CAREReplPolicy.decayed]
  split
  · apply forall_update Saturated h.sht
    exact ⟨(Nat.sub_le _ 1).trans hline.1, hline.2⟩
  · exact h.sht idx

theorem replaced (h : Metadata rp) (id : Nat) : Metadata (rp.replaced id) := by
  have hin := h.decayed id (rp.hashAddr rp.incomingAddr)
  have hblend := @Saturated.blend (rp.pd id) _ hin
  exact ⟨forall_update (· ≤ 7) h.rc hin.1, forall_update (· ≤ 7) h.pd hblend.2,
    forall_update Saturated (h.decayed id) hblend, h.epv_update⟩

end Metadata

theorem better_iff (cand best : Nat) :
    rp.better cand best = true ↔ rp.evictionKey cand < rp.evictionKey best := by
  simp only [evictionKey, Prod.Lex.lt_iff, ofLex_toLex, OrderDual.toDual_lt_toDual,
    OrderDual.toDual_inj, better]
  by_cases h₁ : rp.epv cand > rp.epv best
  · simp [h₁]
  · by_cases h₂ : rp.epv cand = rp.epv best
    · by_cases h₃ : rp.rc cand < rp.rc best
      · simp [h₂, h₃]
      · simp [h₂, h₃]
    · simp [h₁, h₂]

theorem getBestCandidate_argmin (h : rp.candArray ≠ []) :
    rp.candArray.argmin rp.evictionKey = some rp.getBestCandidate := by
  rw [getBestCandidate]
  cases hc : rp.candArray with
  | nil => exact absurd hc h
  | cons b cands =>
    rw [FirstBest.argmin_cons_eq]
    simp only [List.tail_cons, List.headD_cons, better_iff]

end CAREReplPolicy

namespace CAREState

open CAREReplPolicy

variable {s : CAREState}

theorem step_metadata (h : Metadata s.rp) (call : Call) : Metadata (s.step call).rp := by
  cases call with
  | update id => exact h.update id
  | startReplacement lineAddr => exact ⟨h.rc, h.pd, h.sht, h.epv⟩
  | recordCandidate id => exact ⟨h.rc, h.pd, h.sht, h.epv⟩
  | replaced id => exact h.replaced id
  | quantizePMC mshrPMC id =>
    by_cases hid : id < s.numLines
    · simpa only [step, quantizePMC, if_pos hid] using ⟨h.rc, h.pd, h.sht, h.epv⟩
    · simpa only [step, quantizePMC, if_neg hid] using h
  | shtPMCUpdate singleLineAddr id =>
    by_cases hid : id < s.numLines
    · have hsht := @Saturated.shtStep (s.rp.pmcs id) _ (h.sht (s.rp.hashAddr singleLineAddr))
      simp only [step, shtPMCUpdate, if_pos hid]
      exact ⟨h.rc, h.pd, forall_update Saturated h.sht hsht, h.epv⟩
    · simpa only [step, shtPMCUpdate, if_neg hid] using h
  | DTRM mshrPMC => exact h

theorem run_metadata (numLines shtEntries : Nat) (calls : List Call) :
    Metadata (run numLines shtEntries calls).rp := by
  induction calls using List.reverseRecOn with
  | nil => exact Metadata.init shtEntries
  | append_singleton calls call ih =>
    rw [run, List.foldl_append]
    exact step_metadata ih call

/-- After any calls the counters are in their bounds and the priorities up to date, and the victim
among any candidates is the first of those to evict first. -/
theorem run_metadata_victim (numLines shtEntries : Nat) (calls : List Call) :
    let rp := (run numLines shtEntries calls).rp
    Metadata rp ∧ ∀ lineAddr cands, cands ≠ [] →
      cands.argmin rp.evictionKey = some (rp.rank lineAddr cands).2 := by
  intro rp
  refine ⟨run_metadata numLines shtEntries calls, fun lineAddr cands hne => ?_⟩
  have hbest := @getBestCandidate_argmin { rp with candArray := cands, incomingAddr := lineAddr } hne
  have hvictim : (rp.rank lineAddr cands).2 = (rp.rank lineAddr cands).1.getBestCandidate := rfl
  rw [hvictim, rank_policy]
  exact hbest

/-- A line was filled, and its slot is a candidate beside an empty one. -/
theorem run_metadata_victim_hit :
    let rp := (run 2 2 [.startReplacement 5, .recordCandidate 0, .replaced 0, .update 0]).rp
    Metadata rp ∧ [0, 1].argmin rp.evictionKey = some (rp.rank 6 [0, 1]).2 ∧
      (rp.rank 6 [0, 1]).2 = 1 := by
  obtain ⟨hmetadata, hvictim⟩ := run_metadata_victim 2 2
    [.startReplacement 5, .recordCandidate 0, .replaced 0, .update 0]
  exact ⟨hmetadata, hvictim 6 [0, 1] (by decide), by decide⟩

end CAREState

end ZSim
