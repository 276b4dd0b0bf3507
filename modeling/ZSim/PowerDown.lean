import ZSim.DetailedMem

/-! The power-down accounting of the ranks of a channel: what an access or a report charges to
the power states, and when the charges are made. Counters of cycles do not wrap, products of
32-bit words do. The counts of refreshes and precharges are left out. -/

namespace ZSim

structure PowerDownCycles where
  idlePowerDownCycle : Nat
  actvPowerDownCycle : Nat
  idleStandbyCycle : Nat

namespace PowerDownCycles

def total (pw : PowerDownCycles) : Nat :=
  pw.idlePowerDownCycle + pw.actvPowerDownCycle + pw.idleStandbyCycle

def add (pw charge : PowerDownCycles) : PowerDownCycles where
  idlePowerDownCycle := pw.idlePowerDownCycle + charge.idlePowerDownCycle
  actvPowerDownCycle := pw.actvPowerDownCycle + charge.actvPowerDownCycle
  idleStandbyCycle := pw.idleStandbyCycle + charge.idleStandbyCycle

theorem total_add (pw charge : PowerDownCycles) :
    (pw.add charge).total = pw.total + charge.total := by
  simp only [total, add]
  omega

end PowerDownCycles

/-- The product of two 32-bit words. -/
def mul32 (a b : Nat) : Nat := a * b % 2 ^ 32

namespace MemRank

variable (p : MemParam) (rk : MemRank)

def getActiveBankCount : Nat := (List.range p.bankCount).countP rk.bankinfo

/-- A power-down that ends after the threshold, under the open-row policy, when refreshes have
closed the banks. -/
def refreshedCharge (arrivalCycle lastPowerDownCycle powerDownCycle refreshNum : Nat) :
    Option PowerDownCycles := do
  let actbanknum := rk.getActiveBankCount p
  let idlbanknum := p.bankCount - actbanknum
  let refreshEndCycle1 := rk.lastRefreshCycle + p.tREFI
  let refreshEndCycle2 := rk.lastRefreshCycle + mul32 p.tREFI refreshNum
  guard (refreshEndCycle2 ≤ arrivalCycle)
  let diffArrivalCycle := arrivalCycle - refreshEndCycle2
  let diffRefreshCycle :=
    if lastPowerDownCycle < refreshEndCycle1 then refreshEndCycle1 - lastPowerDownCycle else 0
  some
    { idlePowerDownCycle := (idlbanknum * diffRefreshCycle +
        (mul32 (refreshNum - 1) p.tREFI + diffArrivalCycle)) / p.bankCount
      actvPowerDownCycle := actbanknum * diffRefreshCycle / p.bankCount
      idleStandbyCycle := mul32 idlbanknum powerDownCycle / p.bankCount }

/-- What is added to the counters. The open-row policy divides by the number of banks. -/
def powerDownCharge (arrivalCycle lastPhaseCycle refreshNum : Nat) : Option PowerDownCycles :=
  let reported : Bool := rk.lastAccessCycle + p.powerDownCycle < lastPhaseCycle
  let lastPowerDownCycle :=
    if reported then lastPhaseCycle else rk.lastAccessCycle + p.powerDownCycle
  let powerDownCycle := if reported then 0 else p.powerDownCycle
  let actbanknum := rk.getActiveBankCount p
  let idlbanknum := p.bankCount - actbanknum
  if rk.lastAccessCycle = 0 ∧ lastPhaseCycle = 0 then some ⟨arrivalCycle, 0, 0⟩
  else if arrivalCycle ≤ rk.lastAccessCycle then some ⟨0, 0, 0⟩
  else if arrivalCycle ≤ lastPowerDownCycle then
    let diffPowerDownCycle := arrivalCycle - rk.lastAccessCycle
    match p.rowBufferPolicy with
    | .RB_CLOSE => some ⟨0, 0, diffPowerDownCycle⟩
    | .RB_OPEN =>
      if p.bankCount = 0 then none
      else some ⟨0, 0, idlbanknum * diffPowerDownCycle / p.bankCount⟩
  else
    let powerDownDuration := arrivalCycle - lastPowerDownCycle
    match p.rowBufferPolicy with
    | .RB_CLOSE => some ⟨powerDownDuration, 0, powerDownCycle⟩
    | .RB_OPEN =>
      if p.bankCount = 0 then none
      else if refreshNum = 0 then
        some ⟨idlbanknum * powerDownDuration / p.bankCount,
          actbanknum * powerDownDuration / p.bankCount,
          mul32 idlbanknum powerDownCycle / p.bankCount⟩
      else rk.refreshedCharge p arrivalCycle lastPowerDownCycle powerDownCycle refreshNum

/-- The last three asserts are those of the setters. -/
def updatePowerDownCycle (pw : PowerDownCycles) (arrivalCycle lastPhaseCycle refreshNum : Nat) :
    Option PowerDownCycles :=
  if p.powerDownCycle = 0 then some pw
  else do
    let charge ← rk.powerDownCharge p arrivalCycle lastPhaseCycle refreshNum
    let pw' := pw.add charge
    guard (pw'.total ≤ arrivalCycle)
    guard (pw.idlePowerDownCycle ≤ pw'.idlePowerDownCycle)
    guard (pw.actvPowerDownCycle ≤ pw'.actvPowerDownCycle)
    guard (pw.idleStandbyCycle ≤ pw'.idleStandbyCycle)
    some pw'

end MemRank

/-- A channel with the power states of its ranks. `lastPhaseCycle` is the controller's: the cycle
of the last report. -/
structure PowerChannel where
  chnl : MemChannel
  power : Nat → PowerDownCycles
  lastPhaseCycle : Nat

namespace PowerChannel

variable (p : MemParam) (s : PowerChannel)

def init : PowerChannel := ⟨MemChannel.init, fun _ => ⟨0, 0, 0⟩, 0⟩

def chargeRank (i cycle : Nat) : Option PowerDownCycles := do
  let refreshNum ← (s.chnl.ranks i).updateRefreshNum p cycle
  (s.chnl.ranks i).updatePowerDownCycle p (s.power i) cycle s.lastPhaseCycle refreshNum

/-- An access of the channel, with the charge that it makes before its commands. -/
def access (a : MemAccess) : Option PowerChannel := do
  let pw ← s.chargeRank p a.rank a.arrivalCycle
  let (chnl, _) ← s.chnl.latencySimulate p a
  some { s with chnl, power := Function.update s.power a.rank pw }

/-- The body of the loop of `PeriodicUpdatePower`. -/
def updateRank (i phaseCycle : Nat) : Option PowerChannel :=
  let rk := s.chnl.ranks i
  if rk.lastAccessCycle < phaseCycle then do
    let refreshNum ← rk.updateRefreshNum p phaseCycle
    let pw ← s.chargeRank p i phaseCycle
    let rk ← rk.updateLastRefreshCycle p refreshNum
    some { s with
      chnl := { s.chnl with ranks := Function.update s.chnl.ranks i rk }
      power := Function.update s.power i pw }
  else some s

/-- The ranks before `n`, in order. -/
def periodicUpdatePower (phaseCycle : Nat) : Nat → Option PowerChannel
  | 0 => some s
  | n + 1 => (periodicUpdatePower phaseCycle n).bind fun s => s.updateRank p n phaseCycle

/-- A report of the controller, which asserts that time has passed since the last. -/
def report (rankCount phaseCycle : Nat) : Option PowerChannel := do
  guard (s.lastPhaseCycle < phaseCycle)
  let s ← s.periodicUpdatePower p phaseCycle rankCount
  some { s with lastPhaseCycle := phaseCycle }

inductive Op
  | access (a : MemAccess)
  | report (phaseCycle : Nat)

def Op.cycle : Op → Nat
  | .access a => a.arrivalCycle
  | .report phaseCycle => phaseCycle

def step (rankCount : Nat) : Op → Option PowerChannel
  | .access a => s.access p a
  | .report phaseCycle => s.report p rankCount phaseCycle

end PowerChannel

end ZSim
