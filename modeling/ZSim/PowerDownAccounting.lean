import ZSim.PowerDown

/-! No cycle of a rank is charged twice: an update charges no more than the cycles since the
last access or report, as long as a report is out of the way of the power-down threshold and
of refreshes. -/

namespace ZSim

namespace MemRank

variable {p : MemParam} {rk : MemRank} {A P n : Nat}

/-- When the charges of a rank are right. A report that falls within the threshold after an
access, or in the cycle of the next update, is charged again with the next update; and refreshes
that end before the threshold are charged from their end on. The first update of all charges its
whole time to one counter. -/
structure Accountable (p : MemParam) (rk : MemRank) (A P : Nat) : Prop where
  report : rk.lastAccessCycle < P → rk.lastAccessCycle + p.powerDownCycle < P ∧ P < A
  banks : p.rowBufferPolicy = .RB_OPEN → 0 < max rk.lastAccessCycle P → 0 < p.bankCount
  refresh : p.rowBufferPolicy = .RB_OPEN → 0 < max rk.lastAccessCycle P →
    rk.lastRefreshCycle + p.tREFI ≤ A → max (rk.lastAccessCycle + p.powerDownCycle) P < A →
      max (rk.lastAccessCycle + p.powerDownCycle) P ≤ rk.lastRefreshCycle + p.tREFI
  narrow : p.rowBufferPolicy = .RB_OPEN → 0 < max rk.lastAccessCycle P →
    max (rk.lastAccessCycle + p.powerDownCycle) P < A → A < rk.lastRefreshCycle + 2 ^ 32

/-- The closed-row policy leaves the banks and the refreshes out of account. -/
theorem Accountable.of_close (hpol : p.rowBufferPolicy = .RB_CLOSE)
    (h : rk.lastAccessCycle < P → rk.lastAccessCycle + p.powerDownCycle < P ∧ P < A) :
    Accountable p rk A P where
  report := h
  banks hopen := by simp [hpol] at hopen
  refresh hopen := by simp [hpol] at hopen
  narrow hopen := by simp [hpol] at hopen

theorem getActiveBankCount_le : rk.getActiveBankCount p ≤ p.bankCount := by
  simpa [getActiveBankCount] using List.countP_le_length (p := rk.bankinfo) (l := List.range p.bankCount)

/-- The banks share a time. -/
theorem share_le {b x y : Nat} (hb : 0 < b) (hxy : x + y ≤ b) (u r : Nat) :
    (x * u + r) / b + y * u / b ≤ u + r := by
  have hx := Nat.div_mul_le_self (x * u + r) b
  have hy := Nat.div_mul_le_self (y * u) b
  refine Nat.le_of_mul_le_mul_right ?_ hb
  calc ((x * u + r) / b + y * u / b) * b
      = (x * u + r) / b * b + y * u / b * b := by ring
    _ ≤ x * u + r + y * u := by omega
    _ = (x + y) * u + r := by ring
    _ ≤ b * u + r * b := by
      have hu := Nat.mul_le_mul_right u hxy
      have hr := Nat.le_mul_of_pos_right r hb
      omega
    _ = (u + r) * b := by ring

theorem mul32_div_le {b x : Nat} (hx : x ≤ b) (u : Nat) : mul32 x u / b ≤ u := by
  refine Nat.div_le_of_le_mul ?_
  exact Nat.le_trans (Nat.mod_le _ _) (Nat.mul_le_mul_right u hx)

/-- The refreshes since the last one. -/
theorem updateRefreshNum_eq (hn : rk.updateRefreshNum p A = some n)
    (hnarrow : A < rk.lastRefreshCycle + 2 ^ 32) (hpos : n ≠ 0) :
    rk.lastRefreshCycle + p.tREFI * n ≤ A ∧ p.tREFI * n < 2 ^ 32 := by
  rw [updateRefreshNum] at hn
  split at hn
  · split at hn
    · cases hn
    · have hdiv : (A - rk.lastRefreshCycle) / p.tREFI < 2 ^ 32 :=
        Nat.lt_of_le_of_lt (Nat.div_le_self _ _) (by omega)
      rw [Option.some.injEq, Nat.mod_eq_of_lt hdiv] at hn
      have hmul := Nat.mul_div_le (A - rk.lastRefreshCycle) p.tREFI
      rw [hn] at hmul
      omega
  · rw [Option.some.injEq] at hn
    exact absurd hn.symm hpos

theorem refreshedCharge_le {last : Nat} (down : Nat) (hb : 0 < p.bankCount)
    (hn : rk.updateRefreshNum p A = some n) (hpos : n ≠ 0)
    (hnarrow : A < rk.lastRefreshCycle + 2 ^ 32) (hle : last ≤ rk.lastRefreshCycle + p.tREFI) :
    ∃ charge, rk.refreshedCharge p A last down n = some charge ∧
      charge.total ≤ A - last + down := by
  obtain ⟨hend, hlt⟩ := updateRefreshNum_eq hn hnarrow hpos
  obtain ⟨m, rfl⟩ := Nat.exists_eq_add_one_of_ne_zero hpos
  rw [Nat.mul_succ] at hend hlt
  have hsecond : mul32 p.tREFI (m + 1) = p.tREFI * m + p.tREFI := by
    rw [mul32, Nat.mul_succ, Nat.mod_eq_of_lt hlt]
  have hfirst : mul32 m p.tREFI = p.tREFI * m := by
    rw [mul32, Nat.mul_comm, Nat.mod_eq_of_lt (by omega)]
  have hact := rk.getActiveBankCount_le (p := p)
  have hdiff : (if last < rk.lastRefreshCycle + p.tREFI then
      rk.lastRefreshCycle + p.tREFI - last else 0) = rk.lastRefreshCycle + p.tREFI - last := by
    split_ifs <;> omega
  have hguard : rk.lastRefreshCycle + (p.tREFI * m + p.tREFI) ≤ A := by omega
  refine ⟨_, by
    simp only [refreshedCharge, hsecond, Nat.add_sub_cancel, hfirst, hdiff, guard, if_pos hguard]
    rfl, ?_⟩
  have hidl : p.bankCount - rk.getActiveBankCount p + rk.getActiveBankCount p ≤ p.bankCount := by
    omega
  have hshare := share_le hb hidl (rk.lastRefreshCycle + p.tREFI - last)
    (p.tREFI * m + (A - (rk.lastRefreshCycle + (p.tREFI * m + p.tREFI))))
  have hstandby := mul32_div_le (Nat.sub_le p.bankCount (rk.getActiveBankCount p)) down
  simp only [PowerDownCycles.total]
  omega

/-- An update charges cycles that have not been charged. -/
theorem powerDownCharge_le (h : Accountable p rk A P) (hn : rk.updateRefreshNum p A = some n) :
    ∃ charge, rk.powerDownCharge p A P n = some charge ∧
      charge.total ≤ A - max rk.lastAccessCycle P := by
  have hact := rk.getActiveBankCount_le (p := p)
  have hidl : p.bankCount - rk.getActiveBankCount p + rk.getActiveBankCount p ≤ p.bankCount := by
    omega
  obtain ⟨last, hlast⟩ : ∃ last, last = if (rk.lastAccessCycle + p.powerDownCycle < P) then P
    else rk.lastAccessCycle + p.powerDownCycle := ⟨_, rfl⟩
  obtain ⟨down, hdown⟩ : ∃ down, down = if (rk.lastAccessCycle + p.powerDownCycle < P) then 0
    else p.powerDownCycle := ⟨_, rfl⟩
  -- the threshold is counted from the last cycle that is accounted for
  have hmark : max rk.lastAccessCycle P + down = last ∧
      last = max (rk.lastAccessCycle + p.powerDownCycle) P := by
    have hreport := h.report
    rw [hlast, hdown]
    split_ifs <;> omega
  simp only [powerDownCharge, decide_eq_true_eq]
  rw [← hlast, ← hdown]
  by_cases hfirst : rk.lastAccessCycle = 0 ∧ P = 0
  · rw [if_pos hfirst]
    exact ⟨_, rfl, by simp only [PowerDownCycles.total]; omega⟩
  rw [if_neg hfirst]
  have hlater : 0 < max rk.lastAccessCycle P := by omega
  by_cases hold : A ≤ rk.lastAccessCycle
  · rw [if_pos hold]
    exact ⟨_, rfl, Nat.zero_le _⟩
  rw [if_neg hold]
  by_cases hshort : A ≤ last
  · have hlt : max rk.lastAccessCycle P = rk.lastAccessCycle := by
      have hreport := h.report
      omega
    rw [if_pos hshort, hlt]
    cases hpol : p.rowBufferPolicy with
    | RB_CLOSE => exact ⟨_, rfl, by simp only [PowerDownCycles.total]; omega⟩
    | RB_OPEN =>
      have hb := h.banks hpol hlater
      have hshare := share_le hb hidl (A - rk.lastAccessCycle) 0
      rw [Nat.add_zero, Nat.add_zero] at hshare
      dsimp only
      rw [if_neg (Nat.pos_iff_ne_zero.mp hb)]
      refine ⟨_, rfl, ?_⟩
      simp only [PowerDownCycles.total, Nat.zero_add]
      exact Nat.le_trans (Nat.le_add_right _ _) hshare
  rw [if_neg hshort]
  cases hpol : p.rowBufferPolicy with
  | RB_CLOSE => exact ⟨_, rfl, by simp only [PowerDownCycles.total]; omega⟩
  | RB_OPEN =>
    have hb := h.banks hpol hlater
    have hstandby := mul32_div_le (Nat.sub_le p.bankCount (rk.getActiveBankCount p)) down
    dsimp only
    rw [if_neg (Nat.pos_iff_ne_zero.mp hb)]
    by_cases hzero : n = 0
    · have hshare := share_le hb hidl (A - last) 0
      rw [Nat.add_zero, Nat.add_zero] at hshare
      rw [if_pos hzero]
      refine ⟨_, rfl, ?_⟩
      simp only [PowerDownCycles.total]
      omega
    · have hpast : max (rk.lastAccessCycle + p.powerDownCycle) P < A := by omega
      have hnarrow := h.narrow hpol hlater hpast
      obtain ⟨hend, -⟩ := updateRefreshNum_eq hn hnarrow hzero
      have hone : p.tREFI ≤ p.tREFI * n := Nat.le_mul_of_pos_right _ (by omega)
      have hrefresh := h.refresh hpol hlater (by omega) hpast
      obtain ⟨charge, hcharge, hle⟩ := refreshedCharge_le down hb hn hzero hnarrow
        (hmark.2 ▸ hrefresh)
      rw [if_neg hzero]
      exact ⟨charge, hcharge, by omega⟩

/-- What an update does to the counters when the cycles before `mark` are accounted for. -/
structure Charged (A mark : Nat) (pw pw' : PowerDownCycles) : Prop where
  idlePowerDownCycle : pw.idlePowerDownCycle ≤ pw'.idlePowerDownCycle
  actvPowerDownCycle : pw.actvPowerDownCycle ≤ pw'.actvPowerDownCycle
  idleStandbyCycle : pw.idleStandbyCycle ≤ pw'.idleStandbyCycle
  total_le : pw'.total ≤ A
  once : pw'.total ≤ pw.total + (A - mark)

theorem Charged.refl {mark : Nat} {pw : PowerDownCycles} (h : pw.total ≤ A) :
    Charged A mark pw pw :=
  ⟨Nat.le_refl _, Nat.le_refl _, Nat.le_refl _, h, Nat.le_add_right _ _⟩

theorem updatePowerDownCycle_charged {pw : PowerDownCycles}
    (h : p.powerDownCycle ≠ 0 → Accountable p rk A P) (hn : rk.updateRefreshNum p A = some n)
    (htotal : pw.total ≤ A) (hmark : pw.total ≤ max rk.lastAccessCycle P) :
    ∃ pw', rk.updatePowerDownCycle p pw A P n = some pw' ∧
      Charged A (max rk.lastAccessCycle P) pw pw' := by
  by_cases hdown : p.powerDownCycle = 0
  · exact ⟨pw, if_pos hdown, .refl htotal⟩
  · obtain ⟨charge, hcharge, hle⟩ := powerDownCharge_le (h hdown) hn
    have hadd := pw.total_add charge
    have hcur : (pw.add charge).total ≤ A := by omega
    have hidle : pw.idlePowerDownCycle ≤ (pw.add charge).idlePowerDownCycle := Nat.le_add_right _ _
    have hactv : pw.actvPowerDownCycle ≤ (pw.add charge).actvPowerDownCycle := Nat.le_add_right _ _
    have hstandby : pw.idleStandbyCycle ≤ (pw.add charge).idleStandbyCycle := Nat.le_add_right _ _
    refine ⟨pw.add charge, ?_, hidle, hactv, hstandby, hcur, by omega⟩
    simp [updatePowerDownCycle, hdown, hcharge, guard, hcur, hidle, hactv, hstandby]

/-! The last access of a rank moves with an access only. -/

theorem updateLastRefreshCycle_access {rk' : MemRank}
    (h : rk.updateLastRefreshCycle p n = some rk') : rk'.lastAccessCycle = rk.lastAccessCycle := by
  rw [updateLastRefreshCycle] at h
  split at h
  · simp only [refresh, guard, Option.bind_eq_bind, Option.bind_eq_some_iff] at h
    obtain ⟨u, -, h⟩ := h
    cases h
    rfl
  · cases h
    rfl

theorem refreshed_access {rk' : MemRank} (h : rk.refreshed p A = some (rk', n)) :
    rk'.lastAccessCycle = rk.lastAccessCycle := by
  simp only [refreshed, Option.bind_eq_bind, Option.bind_eq_some_iff] at h
  obtain ⟨m, -, rk₁, h₁, h⟩ := h
  cases h
  exact updateLastRefreshCycle_access h₁

theorem issuePrecharge_access {rk' : MemRank} {bank cycle : Nat}
    (h : rk.issuePrecharge bank cycle = some rk') : rk'.lastAccessCycle = rk.lastAccessCycle := by
  simp only [issuePrecharge, setLastPreCycle, Option.bind_eq_bind, Option.bind_eq_some_iff] at h
  obtain ⟨rk₁, ⟨u, -, h₁⟩, h⟩ := h
  cases h₁
  cases h
  rfl

theorem prepareRow_access {a : MemAccess} {rk' : MemRank} {act : Option Nat} {continuous : Bool}
    (h : rk.prepareRow p a n = some (rk', act, continuous)) :
    rk'.lastAccessCycle = rk.lastAccessCycle := by
  simp only [prepareRow] at h
  split at h
  · split at h
    · cases h
      rfl
    · split at h
      · simp only [Option.bind_eq_bind, Option.bind_eq_some_iff] at h
        obtain ⟨u, -, rk₁, h₁, h⟩ := h
        cases h
        have hpre := issuePrecharge_access h₁
        exact hpre
      · cases h
        rfl
  · simp only [Option.bind_eq_bind, Option.bind_eq_some_iff] at h
    obtain ⟨u, -, h⟩ := h
    split at h <;>
    · cases h
      rfl

theorem activateRow_access {a : MemAccess} {rk' : MemRank} {act act' : Option Nat}
    (h : rk.activateRow p a act = some (rk', act')) :
    rk'.lastAccessCycle = rk.lastAccessCycle := by
  cases act with
  | none =>
    cases h
    rfl
  | some cycle =>
    simp only [activateRow, issueActivate, setFAWCycle, setLastActCycle, Option.bind_eq_bind,
      Option.bind_eq_some_iff] at h
    obtain ⟨c, -, rk₁, ⟨rk₂, ⟨faw, -, u, -, h₂⟩, rk₃, ⟨v, -, h₃⟩, h₁⟩, w, -, h⟩ := h
    cases h₂
    cases h₃
    cases h₁
    cases h
    rfl

theorem startRdWr_access {a : MemAccess} {rk' : MemRank} {rowHit continuous : Bool}
    {act : Option Nat} {start : Nat}
    (h : rk.startRdWr p a n rowHit continuous act = some (rk', start)) :
    rk'.lastAccessCycle = rk.lastAccessCycle := by
  cases act with
  | some cycle =>
    cases h
    rfl
  | none =>
    simp only [startRdWr] at h
    split at h
    · cases h
      rfl
    · simp only [Option.bind_eq_bind, Option.bind_eq_some_iff] at h
      obtain ⟨u, -, h⟩ := h
      cases h
      rfl

theorem closeRow_access {a : MemAccess} {rk' : MemRank} {cycle : Nat}
    (h : rk.closeRow p a cycle = some rk') : rk'.lastAccessCycle = rk.lastAccessCycle := by
  simp only [closeRow] at h
  split at h
  · cases h
    rfl
  · simp only [Option.bind_eq_bind, Option.bind_eq_some_iff] at h
    obtain ⟨u, -, h⟩ := h
    exact issuePrecharge_access h

end MemRank

namespace MemChannel

variable {p : MemParam} {c c' : MemChannel} {a : MemAccess} {i : MemIssue}

theorem issueCommands_access {rk : MemRank} {act : Option Nat} {rdwr : Nat}
    (h : c.issueCommands p a = some (rk, act, rdwr)) :
    rk.lastAccessCycle = (c.ranks a.rank).lastAccessCycle := by
  simp only [issueCommands, Option.bind_eq_bind, Option.bind_eq_some_iff, Prod.exists] at h
  obtain ⟨rk₁, n, h₁, rk₂, act₀, continuous, h₂, rk₃, act₁, h₃, rk₄, start, h₄, u, -, v, -, h⟩ := h
  cases h
  rw [MemRank.startRdWr_access h₄, MemRank.activateRow_access h₃, MemRank.prepareRow_access h₂,
    MemRank.refreshed_access h₁]

/-- An access sets the last access of its rank to a cycle after its arrival. -/
theorem latencySimulate_access (h : c.latencySimulate p a = some (c', i)) :
    ∃ rk, c'.ranks = Function.update c.ranks a.rank rk ∧
      (c.ranks a.rank).lastAccessCycle ≤ rk.lastAccessCycle ∧
      a.arrivalCycle ≤ rk.lastAccessCycle := by
  simp only [latencySimulate, Option.bind_eq_bind, Option.bind_eq_some_iff, Prod.exists] at h
  obtain ⟨rk, act, rdwr, hissue, h⟩ := h
  simp only [recordAccess, MemRank.access, Option.bind_eq_bind, Option.bind_eq_some_iff] at h
  obtain ⟨rk₁, ⟨u, -, h₁⟩, rk₂, h₂, log, -, h⟩ := h
  cases h
  have hlast := MemRank.closeRow_access h₂
  rw [← Option.some.inj h₁] at hlast
  refine ⟨rk₂, rfl, ?_, ?_⟩
  · rw [hlast, ← issueCommands_access hissue]
    exact Nat.le_max_left _ _
  · rw [hlast]
    exact Nat.le_trans (Nat.le_add_right _ _) (Nat.le_max_right _ _)

end MemChannel

end ZSim
