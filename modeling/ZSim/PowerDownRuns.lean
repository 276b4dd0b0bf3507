import ZSim.PowerDownAccounting

/-! The power-down accounting over runs of accesses and reports: the counters of a rank never
add up to more than the current cycle, and no cycle is charged twice. -/

namespace ZSim

namespace PowerChannel

open MemRank

variable {p : MemParam} {rankCount now : Nat} {s s' : PowerChannel} {i A : Nat}

/-- The cycle up to which a rank is accounted for. -/
def mark (s : PowerChannel) (i : Nat) : Nat := max (s.chnl.ranks i).lastAccessCycle s.lastPhaseCycle

/-- The ranks that an operation charges can be charged at its cycle. -/
def Op.Accountable (p : MemParam) (rankCount : Nat) (s : PowerChannel) : Op → Prop
  | .access a => p.powerDownCycle ≠ 0 →
      MemRank.Accountable p (s.chnl.ranks a.rank) a.arrivalCycle s.lastPhaseCycle
  | .report phaseCycle => p.powerDownCycle ≠ 0 → ∀ i < rankCount,
      (s.chnl.ranks i).lastAccessCycle < phaseCycle →
        MemRank.Accountable p (s.chnl.ranks i) phaseCycle s.lastPhaseCycle

/-- The channels reached by operations in the order of their cycles. -/
inductive Reachable (p : MemParam) (rankCount : Nat)
    (Cond : PowerChannel → Op → Prop) : PowerChannel → Nat → Prop
  | init : Reachable p rankCount Cond init 0
  | step {s s' : PowerChannel} {now : Nat} (h : Reachable p rankCount Cond s now) (op : Op)
      (hcycle : now ≤ op.cycle) (hop : Cond s op) (hstep : s.step p rankCount op = some s') :
      Reachable p rankCount Cond s' op.cycle

structure Inv (s : PowerChannel) (now : Nat) : Prop where
  phase : s.lastPhaseCycle ≤ now
  total : ∀ i, (s.power i).total ≤ now
  accounted : ∀ i, (s.power i).total ≤ s.mark i

theorem init_inv : Inv init 0 :=
  ⟨Nat.le_refl _, fun _ => Nat.le_refl _, fun _ => Nat.zero_le _⟩

/-- What an operation at cycle `A` does to a rank. -/
structure Accounted (s s' : PowerChannel) (A i : Nat) : Prop where
  charged : Charged A (s.mark i) (s.power i) (s'.power i)
  mark_le : s.mark i ≤ s'.mark i
  mark_of_charged : (s'.power i).total ≠ (s.power i).total → A ≤ s'.mark i

theorem Inv.of_accounted (h : Inv s now) (hphase : s'.lastPhaseCycle ≤ A)
    (hall : ∀ i, Accounted s s' A i) : Inv s' A := by
  refine ⟨hphase, fun i => (hall i).charged.total_le, fun i => ?_⟩
  by_cases heq : (s'.power i).total = (s.power i).total
  · rw [heq]
    exact Nat.le_trans (h.accounted i) (hall i).mark_le
  · exact Nat.le_trans (hall i).charged.total_le ((hall i).mark_of_charged heq)

theorem Inv.chargeRank (h : Inv s now) (hA : now ≤ A)
    (hacc : p.powerDownCycle ≠ 0 → MemRank.Accountable p (s.chnl.ranks i) A s.lastPhaseCycle)
    {pw : PowerDownCycles} (hpw : s.chargeRank p i A = some pw) :
    Charged A (s.mark i) (s.power i) pw := by
  obtain ⟨n, hn, hup⟩ := Option.bind_eq_some_iff.mp hpw
  obtain ⟨pw', hup', hcharged⟩ := updatePowerDownCycle_charged hacc hn
    (Nat.le_trans (h.total i) hA) (h.accounted i)
  rw [hup] at hup'
  cases hup'
  exact hcharged

theorem Inv.access (h : Inv s now) {a : MemAccess} (hA : now ≤ a.arrivalCycle)
    (hacc : (Op.access a).Accountable p rankCount s) (hs : s.access p a = some s') (i : Nat) :
    Accounted s s' a.arrivalCycle i := by
  simp only [PowerChannel.access, Option.bind_eq_bind, Option.bind_eq_some_iff, Prod.exists] at hs
  obtain ⟨pw, hpw, chnl, issue, hsim, hs⟩ := hs
  cases hs
  obtain ⟨rk, hranks, hlast, harrival⟩ := MemChannel.latencySimulate_access hsim
  by_cases hi : i = a.rank
  · subst hi
    have hmark : mark { s with chnl, power := Function.update s.power a.rank pw } a.rank =
        max rk.lastAccessCycle s.lastPhaseCycle := by
      simp only [mark, hranks, Function.update_self]
    refine ⟨?_, ?_, fun _ => ?_⟩
    · simpa using h.chargeRank hA hacc hpw
    · rw [hmark, mark]
      omega
    · rw [hmark]
      omega
  · have hpower : Function.update s.power a.rank pw i = s.power i := Function.update_of_ne hi _ _
    have hrank : chnl.ranks i = s.chnl.ranks i := by rw [hranks, Function.update_of_ne hi]
    refine ⟨?_, ?_, fun hne => absurd (congrArg PowerDownCycles.total hpower) hne⟩
    · change Charged _ _ _ (Function.update s.power a.rank pw i)
      rw [hpower]
      exact .refl (Nat.le_trans (h.total i) hA)
    · simp only [mark, hrank]
      exact Nat.le_refl _

/-- The ranks up to `n` are charged, and the others are as they were. -/
structure Reported (s s' : PowerChannel) (A n : Nat) : Prop where
  phase : s'.lastPhaseCycle = s.lastPhaseCycle
  access : ∀ i, (s'.chnl.ranks i).lastAccessCycle = (s.chnl.ranks i).lastAccessCycle
  charged : ∀ i, Charged A (s.mark i) (s.power i) (s'.power i)
  rest : ∀ i, n ≤ i → s'.chnl.ranks i = s.chnl.ranks i ∧ s'.power i = s.power i

theorem Inv.periodicUpdatePower (h : Inv s now) (hA : now ≤ A)
    (hacc : (Op.report A).Accountable p rankCount s) (n : Nat) (hn : n ≤ rankCount)
    (hs : s.periodicUpdatePower p A n = some s') : Reported s s' A n := by
  induction n generalizing s' with
  | zero =>
    cases hs
    exact ⟨rfl, fun _ => rfl, fun i => .refl (Nat.le_trans (h.total i) hA), fun _ _ => ⟨rfl, rfl⟩⟩
  | succ n ih =>
    obtain ⟨s₁, hs₁, hs'⟩ := Option.bind_eq_some_iff.mp hs
    have hrep := ih (by omega) hs₁
    obtain ⟨hrank, hpower⟩ := hrep.rest n (Nat.le_refl _)
    simp only [updateRank] at hs'
    split at hs'
    · next hlt =>
      simp only [Option.bind_eq_bind, Option.bind_eq_some_iff] at hs'
      obtain ⟨refreshNum, hnum, pw, hpw, rk, hrk, hs'⟩ := hs'
      cases hs'
      have hlast := updateLastRefreshCycle_access hrk
      have hsame : s₁.chargeRank p n A = s.chargeRank p n A := by
        simp only [PowerChannel.chargeRank, hrank, hpower, hrep.phase]
      rw [hsame] at hpw
      have hcharged := h.chargeRank hA (fun hdown => hacc hdown n hn (hrank ▸ hlt)) hpw
      refine ⟨hrep.phase, fun i => ?_, fun i => ?_, fun i hi => ?_⟩
      · by_cases hi : i = n
        · subst hi
          simpa [hlast] using hrep.access i
        · simpa [hi] using hrep.access i
      · by_cases hi : i = n
        · subst hi
          simpa using hcharged
        · simpa [hi] using hrep.charged i
      · have hne : i ≠ n := by omega
        simpa [hne] using hrep.rest i (by omega)
    · cases hs'
      exact ⟨hrep.phase, hrep.access, hrep.charged, fun i hi => hrep.rest i (by omega)⟩

theorem Inv.report (h : Inv s now) (hA : now ≤ A) (hacc : (Op.report A).Accountable p rankCount s)
    (hs : s.report p rankCount A = some s') (i : Nat) : Accounted s s' A i := by
  simp only [PowerChannel.report, Option.bind_eq_bind, Option.bind_eq_some_iff] at hs
  obtain ⟨u, -, s₁, hs₁, hs⟩ := hs
  cases hs
  have hrep := h.periodicUpdatePower hA hacc rankCount (Nat.le_refl _) hs₁
  have hphase := h.phase
  have hmark : mark { s₁ with lastPhaseCycle := A } i =
      max (s.chnl.ranks i).lastAccessCycle A := by
    simp only [mark, hrep.access]
  refine ⟨hrep.charged i, ?_, fun _ => ?_⟩
  · rw [hmark, mark]
    omega
  · rw [hmark]
    exact Nat.le_max_right _ _

theorem Inv.step (h : Inv s now) {op : Op} (hcycle : now ≤ op.cycle)
    (hop : op.Accountable p rankCount s) (hstep : s.step p rankCount op = some s') :
    (∀ i, Accounted s s' op.cycle i) ∧ Inv s' op.cycle := by
  cases op with
  | access a =>
    have hall := h.access hcycle hop hstep
    refine ⟨hall, h.of_accounted ?_ hall⟩
    simp only [PowerChannel.step, PowerChannel.access, Option.bind_eq_bind, Option.bind_eq_some_iff,
      Prod.exists] at hstep
    obtain ⟨pw, -, chnl, issue, -, hs⟩ := hstep
    cases hs
    exact Nat.le_trans h.phase hcycle
  | report phaseCycle =>
    have hall := h.report hcycle hop hstep
    refine ⟨hall, h.of_accounted ?_ hall⟩
    simp only [PowerChannel.step, PowerChannel.report, Option.bind_eq_bind,
      Option.bind_eq_some_iff] at hstep
    obtain ⟨u, -, s₁, -, hs⟩ := hstep
    cases hs
    exact Nat.le_refl _

theorem Reachable.inv (h : Reachable p rankCount (fun s op => op.Accountable p rankCount s) s now) :
    Inv s now := by
  induction h with
  | init => exact init_inv
  | step _ op hcycle hop hstep ih => exact (ih.step hcycle hop hstep).2

/-- In every run whose operations are accountable, the counters of a rank add up to no more
than the current cycle, the asserts of the next update hold, and an operation charges no
cycle that is accounted for. -/
theorem power_accounting
    (h : Reachable p rankCount (fun s op => op.Accountable p rankCount s) s now) :
    (∀ i, (s.power i).total ≤ now) ∧
    (∀ i A n, now ≤ A → (s.chnl.ranks i).updateRefreshNum p A = some n →
      (p.powerDownCycle ≠ 0 → MemRank.Accountable p (s.chnl.ranks i) A s.lastPhaseCycle) →
        ∃ pw, (s.chnl.ranks i).updatePowerDownCycle p (s.power i) A s.lastPhaseCycle n = some pw) ∧
    ∀ op s', now ≤ op.cycle → op.Accountable p rankCount s → s.step p rankCount op = some s' →
      ∀ i, Accounted s s' op.cycle i := by
  refine ⟨h.inv.total, fun i A n hA hn hacc => ?_, fun op s' hcycle hop hstep =>
    (h.inv.step hcycle hop hstep).1⟩
  obtain ⟨pw, hpw, -⟩ := updatePowerDownCycle_charged hacc hn (Nat.le_trans (h.inv.total i) hA)
    (h.inv.accounted i)
  exact ⟨pw, hpw⟩

/-- A report of an idle rank charges all cycles so far. -/
theorem report_run : ∃ s, init.step .default 1 (.report 1000) = some s ∧
    s.lastPhaseCycle = 1000 ∧ (s.power 0).total = 1000 ∧ (s.chnl.ranks 0).lastAccessCycle = 0 ∧
    (s.chnl.ranks 0).lastRefreshCycle = 1000 :=
  ⟨_, rfl, rfl, rfl, rfl, rfl⟩

/-- The next update comes a hundred cycles after a report. -/
theorem power_accounting_report : ∃ s pw,
    Reachable .default 1 (fun s op => op.Accountable .default 1 s) s 1000 ∧
      (s.power 0).total ≤ 1000 ∧
      (s.chnl.ranks 0).updatePowerDownCycle .default (s.power 0) 1100 s.lastPhaseCycle 100 =
        some pw := by
  obtain ⟨s, hs, hphase, htotal, haccess, hrefresh⟩ := report_run
  have hreach : Reachable .default 1 (fun s op => op.Accountable .default 1 s) s 1000 :=
    .step .init (.report 1000) (Nat.zero_le _)
      (fun _ i _ _ => .of_close rfl fun h => absurd h (Nat.not_lt_zero _)) hs
  have hmain := power_accounting hreach
  have hnum : (s.chnl.ranks 0).updateRefreshNum .default 1100 = some 100 := by
    rw [MemRank.updateRefreshNum, hrefresh]
    rfl
  obtain ⟨pw, hpw⟩ := hmain.2.1 0 1100 100 (by decide) hnum fun _ => .of_close rfl fun _ => by
    rw [haccess, hphase]
    decide
  exact ⟨s, pw, hreach, hmain.1 0, hpw⟩

/-- An access in the cycle of a report: all cycles so far are charged once more, and the assert
fails. -/
theorem access_at_report_fails : ∃ s,
    Reachable .default 1 (fun _ _ => True) s 1000 ∧ (s.power 0).total = 1000 ∧
      (s.chnl.ranks 0).updateRefreshNum .default 1000 = some 0 ∧
      (s.chnl.ranks 0).updatePowerDownCycle .default (s.power 0) 1000 s.lastPhaseCycle 0 = none ∧
      ∀ a, a.rank = 0 → a.arrivalCycle = 1000 → s.step .default 1 (.access a) = none := by
  have hs : ∃ s, init.step .default 1 (.report 1000) = some s ∧ (s.power 0).total = 1000 ∧
      (s.chnl.ranks 0).updateRefreshNum .default 1000 = some 0 ∧
      (s.chnl.ranks 0).updatePowerDownCycle .default (s.power 0) 1000 s.lastPhaseCycle 0 = none :=
    ⟨_, rfl, rfl, rfl, rfl⟩
  obtain ⟨s, hs, htotal, hnum, hfail⟩ := hs
  refine ⟨s, .step .init (.report 1000) (Nat.zero_le _) trivial hs, htotal, hnum, hfail, ?_⟩
  intro a hrank harrival
  have hcharge : s.chargeRank .default a.rank a.arrivalCycle = none := by
    rw [hrank, harrival, chargeRank, hnum]
    exact hfail
  simp only [step, access, hcharge]
  rfl

end PowerChannel

end ZSim
