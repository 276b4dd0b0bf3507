import Mathlib.Tactic
import ZSim.CoreCycles
import ZSim.SumUpdate

/-! The cycles and instructions of processes are those of all cores, if no core goes back. -/

namespace ZSim

namespace GlobSimInfo

open Finset

variable {G : GlobSimConfig} {s s' s'' : GlobSimInfo} {cid p : Nat} {op : Op} {ops : List Op}

/-- `C` holds of every step of the run. -/
def AllSteps (G : GlobSimConfig) (C : GlobSimInfo → Op → GlobSimInfo → Prop) :
    List Op → GlobSimInfo → Prop
  | [], _ => True
  | op :: ops, s => ∀ s', s.step G op = some s' → C s op s' ∧ AllSteps G C ops s'

/-- The processes together have the cycles and instructions of all cores at their last update. -/
structure Sums (G : GlobSimConfig) (s : GlobSimInfo) : Prop where
  cycles : ∑ p ∈ range G.maxProcs, s.stats.processCycles p =
    ∑ cid ∈ range G.numCores, s.stats.lastCoreCycles cid
  instrs : ∑ p ∈ range G.maxProcs, s.stats.processInstrs p =
    ∑ cid ∈ range G.numCores, s.stats.lastCoreInstrs cid

/-- No counter goes back, and no check of the process statistics fails. -/
structure Counted (G : GlobSimConfig) (s s' : GlobSimInfo) : Prop where
  cycles : ∀ cid < G.numCores, s.getCycles cid ≤ s'.getCycles cid
  updateCore : ∀ cid < G.numCores, ∀ p < G.maxProcs, (s'.updateCore G cid p).isSome
  getProcess : (s'.getProcess G).isSome
  sums : Sums G s'

/-- Every core that is done draining in a phase ends no earlier than where it was. -/
def MeetsDrain (G : GlobSimConfig) (s : GlobSimInfo) : Op → Prop
  | .simulatePhase weave =>
    ∀ cid < G.numCores, (s.cores cid).MeetsDrain s.globPhaseCycles (weave cid)
  | _ => True

structure Inv (G : GlobSimConfig) (s : GlobSimInfo) : Prop where
  ready : ∀ cid < G.numCores, (s.cores cid).Ready
  cycles : ∀ cid < G.numCores, s.stats.lastCoreCycles cid ≤ s.getCycles cid
  instrs : ∀ cid < G.numCores, s.stats.lastCoreInstrs cid ≤ (s.cores cid).getInstrs
  phase : s.stats.lastUpdatePhase ≤ s.numPhases
  pids : ∀ cid < G.numCores, ∀ pid ∈ s.scheduledPid cid, pid < G.maxProcs
  sums : Sums G s

theorem Inv.init (ooo : Nat → Bool) : Inv G (init ooo) := by
  have hhalted : ∀ cid, ((GlobSimInfo.init ooo).cores cid).account = .init := by
    intro cid
    simp only [GlobSimInfo.init, Core.init]
    split <;> rfl
  refine ⟨fun cid _ => ?_, fun cid _ => ?_, fun cid _ => Nat.zero_le _, Nat.le_refl 0,
    fun cid _ => by simp [GlobSimInfo.init], ⟨by simp [GlobSimInfo.init], by simp [GlobSimInfo.init]⟩⟩
  · rw [Core.Ready, hhalted]
    exact ⟨fun _ => ⟨rfl, rfl⟩, fun h => by cases h⟩
  · rw [getCycles, Core.getCycles, hhalted, CycleAccount.unhalted_of_halted rfl]
    simp [GlobSimInfo.init, CycleAccount.init]

/-- What a step of the cores does: their counters advance, and nothing else changes. -/
structure Advances (G : GlobSimConfig) (s s' : GlobSimInfo) : Prop where
  stats : s'.stats = s.stats
  scheduledPid : s'.scheduledPid = s.scheduledPid
  numPhases : s.numPhases ≤ s'.numPhases
  ready : ∀ cid < G.numCores, (s'.cores cid).Ready
  cycles : ∀ cid < G.numCores, s.getCycles cid ≤ s'.getCycles cid
  instrs : ∀ cid < G.numCores, (s.cores cid).getInstrs ≤ (s'.cores cid).getInstrs

theorem Inv.advance (hinv : Inv G s) (h : Advances G s s') : Inv G s' := by
  constructor
  · exact h.ready
  · intro cid hcid
    rw [h.stats]
    exact (hinv.cycles cid hcid).trans (h.cycles cid hcid)
  · intro cid hcid
    rw [h.stats]
    exact (hinv.instrs cid hcid).trans (h.instrs cid hcid)
  · rw [h.stats]
    exact hinv.phase.trans h.numPhases
  · intro cid hcid
    rw [h.scheduledPid]
    exact hinv.pids cid hcid
  · exact ⟨by rw [h.stats]; exact hinv.sums.cycles, by rw [h.stats]; exact hinv.sums.instrs⟩

/-- The two states have the same cores in the same phase. -/
structure SameCores (s s' : GlobSimInfo) : Prop where
  cores : s'.cores = s.cores
  globPhaseCycles : s'.globPhaseCycles = s.globPhaseCycles
  numPhases : s'.numPhases = s.numPhases

namespace SameCores

theorem refl (s : GlobSimInfo) : SameCores s s := ⟨rfl, rfl, rfl⟩

theorem trans (h : SameCores s s') (h' : SameCores s' s'') : SameCores s s'' :=
  ⟨h'.cores.trans h.cores, h'.globPhaseCycles.trans h.globPhaseCycles,
    h'.numPhases.trans h.numPhases⟩

theorem getCycles (h : SameCores s s') : s'.getCycles = s.getCycles := by
  funext cid
  rw [GlobSimInfo.getCycles, h.cores, h.globPhaseCycles, GlobSimInfo.getCycles]

end SameCores

theorem Inv.schedule {pid : Option Nat} (hinv : Inv G s) (hpid : ∀ p ∈ pid, p < G.maxProcs) :
    Inv G { s with scheduledPid := Function.update s.scheduledPid cid pid } := by
  refine ⟨hinv.ready, hinv.cycles, hinv.instrs, hinv.phase, fun i hi => ?_,
    hinv.sums.cycles, hinv.sums.instrs⟩
  by_cases hne : i = cid
  · subst hne
    simpa using hpid
  · simpa [hne] using hinv.pids i hi

theorem update_le {M : Type} [Preorder M] {f g : Nat → M} {i c : Nat} (h : f c ≤ g c) :
    Function.update f i (g i) c ≤ g c := by
  by_cases hc : c = i
  · rw [hc, Function.update_self]
  · rwa [Function.update_of_ne hc]

theorem Inv.updateCore (hinv : Inv G s) (hcid : cid < G.numCores) (hp : p < G.maxProcs) :
    ∃ s', s.updateCore G cid p = some s' ∧ Inv G s' ∧ SameCores s s' ∧
      s'.scheduledPid = s.scheduledPid := by
  have hcycles := hinv.cycles cid hcid
  have hinstrs := hinv.instrs cid hcid
  have hgroup := G.groupIdx_lt p hp
  refine ⟨_, if_pos ⟨hcycles, hinstrs⟩, ?_, ⟨rfl, rfl, rfl⟩, rfl⟩
  constructor
  · exact hinv.ready
  · intro c hc
    exact @update_le _ _ _ s.getCycles cid c (hinv.cycles c hc)
  · intro c hc
    exact @update_le _ _ _ (fun c => (s.cores c).getInstrs) cid c (hinv.instrs c hc)
  · exact hinv.phase
  · exact hinv.pids
  · constructor
    · exact sum_update_eq hgroup hcid hinv.sums.cycles (by ring)
    · exact sum_update_eq hgroup hcid hinv.sums.instrs (by omega)

theorem Inv.updateCores {cids : List Nat} (hinv : Inv G s) (hcids : ∀ cid ∈ cids, cid < G.numCores) :
    ∃ s', updateCores G cids s = some s' ∧ Inv G s' ∧ SameCores s s' := by
  induction cids generalizing s with
  | nil => exact ⟨s, rfl, hinv, .refl s⟩
  | cons cid cids ih =>
    have hcid := hcids cid List.mem_cons_self
    have hrest : ∀ c ∈ cids, c < G.numCores := fun c hc => hcids c (List.mem_cons_of_mem _ hc)
    cases hpid : s.scheduledPid cid with
    | none =>
      rw [GlobSimInfo.updateCores, hpid]
      exact ih hinv hrest
    | some pid =>
      obtain ⟨s₁, h₁, hinv₁, hsame₁, -⟩ := hinv.updateCore hcid (hinv.pids cid hcid pid hpid)
      obtain ⟨s₂, h₂, hinv₂, hsame₂⟩ := ih hinv₁ hrest
      refine ⟨s₂, ?_, hinv₂, hsame₁.trans hsame₂⟩
      simp only [GlobSimInfo.updateCores, hpid]
      rw [h₁]
      exact h₂

theorem Inv.getProcess (hinv : Inv G s) :
    ∃ s', s.getProcess G = some s' ∧ Inv G s' ∧ SameCores s s' := by
  rw [GlobSimInfo.getProcess]
  split
  · next hne =>
    obtain ⟨s₁, h₁, hinv₁, hsame⟩ := hinv.updateCores fun cid hcid => List.mem_range.mp hcid
    refine ⟨{ s₁ with stats := { s₁.stats with lastUpdatePhase := s₁.numPhases } }, ?_, ?_, ?_⟩
    · rw [update, if_pos (Nat.lt_of_le_of_ne hinv.phase hne), h₁]
      rfl
    · exact ⟨hinv₁.ready, hinv₁.cycles, hinv₁.instrs, Nat.le_refl _, hinv₁.pids,
        hinv₁.sums.cycles, hinv₁.sums.instrs⟩
    · exact ⟨hsame.cores, hsame.globPhaseCycles, hsame.numPhases⟩
  · exact ⟨s, rfl, hinv, .refl s⟩

theorem Inv.counted (hinv : Inv G s')
    (hcycles : ∀ cid < G.numCores, s.getCycles cid ≤ s'.getCycles cid) :
    Counted G s s' := by
  refine ⟨hcycles, fun cid hcid p hp => ?_, ?_, hinv.sums⟩
  · obtain ⟨s₁, h₁, -⟩ := hinv.updateCore hcid hp
    rw [h₁]
    rfl
  · obtain ⟨s₁, h₁, -⟩ := hinv.getProcess
    rw [h₁]
    rfl

theorem simulateCores_spec {weave : Nat → List Nat} {cids : List Nat} (hnodup : cids.Nodup)
    (h : simulateCores G weave cids s = some s') :
    ∃ cores, s' = { s with cores := cores } ∧
      (∀ cid ∈ cids, (s.cores cid).simulatePhase (s.globPhaseCycles + G.phaseLength) (weave cid) =
        some (cores cid)) ∧ ∀ cid ∉ cids, cores cid = s.cores cid := by
  induction cids generalizing s with
  | nil =>
    exact ⟨s.cores, (Option.some.inj h).symm, by simp, fun _ _ => rfl⟩
  | cons cid cids ih =>
    obtain ⟨hnot, hrest⟩ := List.nodup_cons.mp hnodup
    obtain ⟨c, hc, h'⟩ := Option.bind_eq_some_iff.mp h
    obtain ⟨cores, rfl, hin, hout⟩ := ih hrest h'
    refine ⟨cores, rfl, fun i hi => ?_, fun i hi => ?_⟩
    · rcases List.mem_cons.mp hi with rfl | hi
      · rw [hc, hout i hnot]
        simp
      · have hne : i ≠ cid := fun heq => hnot (heq ▸ hi)
        have hi' := hin i hi
        simp only [Function.update_of_ne hne] at hi'
        exact hi'
    · have hne : i ≠ cid := fun heq => hi (heq ▸ List.mem_cons_self)
      rw [hout i fun hi' => hi (List.mem_cons_of_mem _ hi')]
      exact Function.update_of_ne hne c s.cores

/-- A phase moves no core back if and only if all cores meet the condition. -/
theorem simulatePhase_advances {weave : Nat → List Nat} (hinv : Inv G s)
    (h : s.step G (.simulatePhase weave) = some s') :
    ((∀ cid < G.numCores, s.getCycles cid ≤ s'.getCycles cid) ↔
        MeetsDrain G s (.simulatePhase weave)) ∧
      (MeetsDrain G s (.simulatePhase weave) → Advances G s s') := by
  obtain ⟨cores, rfl, hin, -⟩ := simulateCores_spec List.nodup_range h
  have hcore : ∀ cid < G.numCores, (cores cid).Ready ∧
      ((s.cores cid).getCycles s.globPhaseCycles ≤ (cores cid).getCycles s.globPhaseCycles ↔
        (s.cores cid).MeetsDrain s.globPhaseCycles (weave cid)) := fun cid hcid =>
    Core.simulatePhase_le_iff (hinv.ready cid hcid) (hin cid (List.mem_range.mpr hcid))
  refine ⟨forall₂_congr fun cid hcid => (hcore cid hcid).2, fun hmeets => ?_⟩
  refine ⟨rfl, rfl, Nat.le_refl _, fun cid hcid => (hcore cid hcid).1, fun cid hcid => ?_,
    fun cid hcid => ?_⟩
  · exact (hcore cid hcid).2.mpr (hmeets cid hcid)
  · exact (Core.simulatePhase_run (hin cid (List.mem_range.mpr hcid))).2.ge

theorem step_counted (hinv : Inv G s) (hop : Allowed G op) (h : s.step G op = some s') :
    (Counted G s s' ↔ MeetsDrain G s op) ∧ (MeetsDrain G s op → Inv G s') := by
  have hcounted : Inv G s' → (∀ cid < G.numCores, s.getCycles cid ≤ s'.getCycles cid) →
      (Counted G s s' ↔ True) ∧ (True → Inv G s') := fun hinv' hcycles =>
    ⟨iff_true_intro (hinv'.counted hcycles), fun _ => hinv'⟩
  cases op with
  | core cid op =>
    obtain ⟨c, hc, rfl⟩ := Option.map_eq_some_iff.mp h
    obtain ⟨hready, hcycles, hinstrs⟩ := Core.step_le hc
    have hadvances : Advances G s { s with cores := Function.update s.cores cid c } := by
      refine ⟨rfl, rfl, Nat.le_refl _, fun i hi => ?_, fun i hi => ?_, fun i hi => ?_⟩
      all_goals by_cases hne : i = cid
      · subst hne
        simpa using hready
      · simpa [hne] using hinv.ready i hi
      · subst hne
        simpa [getCycles] using hcycles
      · simp [getCycles, hne]
      · subst hne
        simpa using hinstrs
      · simp [hne]
    exact hcounted (hinv.advance hadvances) hadvances.cycles
  | simulatePhase weave =>
    obtain ⟨hiff, hadvances⟩ := simulatePhase_advances hinv h
    refine ⟨⟨fun hc => hiff.mp hc.cycles, fun hmeets => ?_⟩,
      fun hmeets => hinv.advance (hadvances hmeets)⟩
    exact (hinv.advance (hadvances hmeets)).counted (hiff.mpr hmeets)
  | endPhase =>
    cases h
    have hadvances : Advances G s { s with
        numPhases := s.numPhases + 1
        globPhaseCycles := s.globPhaseCycles + G.phaseLength } :=
      ⟨rfl, rfl, Nat.le_succ _, hinv.ready,
        fun cid _ => CycleAccount.unhalted_le_glob (Nat.le_add_right _ _), fun _ _ => Nat.le_refl _⟩
    exact hcounted (hinv.advance hadvances) hadvances.cycles
  | schedule cid pid =>
    simp only [step] at h
    split at h
    · cases h
      exact hcounted (hinv.schedule (by simpa using hop.2)) fun _ _ => le_rfl
    · cases h
  | deschedule cid =>
    obtain ⟨pid, hpid, h'⟩ := Option.bind_eq_some_iff.mp h
    have hinv₀ : Inv G { s with scheduledPid := Function.update s.scheduledPid cid none } :=
      hinv.schedule (by simp)
    obtain ⟨s₁, h₁, hinv₁, hsame, -⟩ := hinv₀.updateCore hop (hinv.pids cid hop pid hpid)
    obtain rfl := Option.some.inj (h₁.symm.trans h')
    refine hcounted hinv₁ fun i _ => ?_
    rw [hsame.getCycles, getCycles, getCycles]
  | getProcess =>
    obtain ⟨s₁, h₁, hinv₁, hsame⟩ := hinv.getProcess
    obtain rfl := Option.some.inj (h₁.symm.trans h)
    refine hcounted hinv₁ fun i _ => ?_
    rw [hsame.getCycles]

theorem allSteps_iff (hinv : Inv G s) (hops : ∀ op ∈ ops, Allowed G op) :
    AllSteps G (fun s _ s' => Counted G s s') ops s ↔
      AllSteps G (fun s op _ => MeetsDrain G s op) ops s := by
  induction ops generalizing s with
  | nil => exact Iff.rfl
  | cons op ops ih =>
    have hop := hops op List.mem_cons_self
    have hrest : ∀ op ∈ ops, Allowed G op := fun o ho => hops o (List.mem_cons_of_mem op ho)
    constructor
    · intro hall s' h
      obtain ⟨hcounted, hsteps⟩ := hall s' h
      obtain ⟨hiff, hinv'⟩ := step_counted hinv hop h
      have hmeets := hiff.mp hcounted
      exact ⟨hmeets, (ih (hinv' hmeets) hrest).mp hsteps⟩
    · intro hall s' h
      obtain ⟨hmeets, hsteps⟩ := hall s' h
      obtain ⟨hiff, hinv'⟩ := step_counted hinv hop h
      exact ⟨hiff.mpr hmeets, (ih (hinv' hmeets) hrest).mpr hsteps⟩

/-- The counters of all cores go on and the counts of all processes sum to them, in every step of
a run, if and only if no core that is done draining ends before where it was. -/
theorem counters_go_on_iff (ooo : Nat → Bool) (hops : ∀ op ∈ ops, Allowed G op) :
    AllSteps G (fun s _ s' => Counted G s s') ops (init ooo) ↔
      AllSteps G (fun s op _ => MeetsDrain G s op) ops (init ooo) :=
  allSteps_iff (.init ooo) hops

/-- One core with phases of 1000 cycles, and one process. -/
def single : GlobSimConfig := ⟨1, 1000, 1, id, fun _ h => h⟩

/-- The core leaves at 505. Contention delays it by 500, so its last event is left to the phase
after that. -/
def lateLeave : List Op :=
  [.schedule 0 0, .core 0 .join, .core 0 (.access (some ⟨true, 4, 104⟩) 104),
    .core 0 (.access (some ⟨true, 108, 208⟩) 104), .core 0 (.bbl 297 0), .core 0 .leave,
    .simulatePhase fun _ => [0, 0, 604, 708], .endPhase, .getProcess,
    .simulatePhase fun _ => [1005]]

theorem counters_go_on_late :
    AllSteps single (fun s _ s' => Counted single s s') lateLeave (init fun _ => false) ↔
      AllSteps single (fun s op _ => MeetsDrain single s op) lateLeave (init fun _ => false) :=
  counters_go_on_iff (fun _ => false) (by simp [lateLeave, Allowed, single])

theorem late_goes_back :
    ¬ AllSteps single (fun s _ s' => Counted single s s') lateLeave (init fun _ => false) := by
  intro h
  have h₁ := (h _ rfl).2
  have h₂ := (h₁ _ rfl).2
  have h₃ := (h₂ _ rfl).2
  have h₄ := (h₃ _ rfl).2
  have h₅ := (h₄ _ rfl).2
  have h₆ := (h₅ _ rfl).2
  have h₇ := (h₆ _ rfl).2
  have h₈ := (h₇ _ rfl).2
  have h₉ := (h₈ _ rfl).2
  have hback := (h₉ _ rfl).1.cycles 0 (by decide)
  revert hback
  decide

end GlobSimInfo

end ZSim
