import ZSim.CareRepl

/-! The contention simulation of a timing cache under CARE: hits, miss starts and miss
writebacks, the MSHRs and their pure miss contributions. Cycles are unsigned 64-bit words.
A failed assert is `none`. -/

namespace ZSim

structure MSHR where
  lineAddr : Address
  valid : Bool
  id : Nat
  PMC : ℚ
  signature : Nat
  deriving DecidableEq

structure MissStartEvent where
  ev : Nat
  lineAddr : Address
  lineId : Nat
  deriving DecidableEq

/-- What a handler calls on events and on CARE. -/
inductive TimingCall
  | done (ev cycle : Nat)
  | hold (ev : Nat)
  | requeue (ev cycle : Nat)
  | DTRM (mshrPMC : ℚ)
  | quantizePMC (lineAddr : Address) (mshrPMC : ℚ) (id : Nat)
  | shtPMCUpdate (lineAddr : Address) (mshrPMC : ℚ) (id : Nat)

inductive CareWarning
  | cycleDifferenceNegative | outOfSpace | entryNotRemoved
  deriving DecidableEq

structure TimingCache where
  numMSHRs : Nat
  care : CAREReplPolicy
  lastAccCycle : Nat
  lastFreeCycle : Nat
  activeMisses : Nat
  pendingQueue : List Nat
  mshrList : List MSHR
  lastRecordedCycle : Nat
  warnings : List CareWarning

namespace TimingCache

def init (numMSHRs : Nat) (care : CAREReplPolicy) : TimingCache where
  numMSHRs := numMSHRs
  care := care
  lastAccCycle := 0
  lastFreeCycle := 0
  activeMisses := 0
  pendingQueue := []
  mshrList := List.replicate numMSHRs ⟨0, false, 0, 0, 0⟩
  lastRecordedCycle := 0
  warnings := []

/-- `cycle - 1` and `cycle + 1` of the source wrap. -/
def prevCycle (cycle : Nat) : Nat := (cycle + (2 ^ 64 - 1)) % 2 ^ 64

def nextCycle (cycle : Nat) : Nat := (cycle + 1) % 2 ^ 64

def highPrioAccess (c : TimingCache) (cycle : Nat) : Option (TimingCache × Nat) :=
  if c.lastFreeCycle ≤ cycle then
    let lookupCycle := max cycle (nextCycle c.lastAccCycle)
    some ({ c with
      lastFreeCycle :=
        if c.lastAccCycle < prevCycle cycle then prevCycle cycle else c.lastFreeCycle
      lastAccCycle := lookupCycle }, lookupCycle)
  else none

/-- The lookup cycle is 0 when the access is not granted. -/
def tryLowPrioAccess (c : TimingCache) (cycle : Nat) : TimingCache × Nat :=
  if c.lastAccCycle < prevCycle cycle ∨ c.lastFreeCycle = prevCycle cycle then
    ({ c with
      lastFreeCycle := 0
      lastAccCycle := max (prevCycle cycle) c.lastAccCycle }, cycle)
  else (c, 0)

def warn (c : TimingCache) (w : CareWarning) : TimingCache :=
  { c with warnings := w :: c.warnings }

/-- `clock_diff` is a signed 32-bit integer. -/
def clockDiff (lastRecordedCycle cycle : Nat) : Int :=
  if lastRecordedCycle = 0 then 1
  else (BitVec.ofNat 32 (cycle + (2 ^ 64 - lastRecordedCycle))).toInt

/-- The negation of a signed 32-bit integer. -/
def negDiff (d : Int) : Int := (-BitVec.ofInt 32 d).toInt

/-- The share of each entry in `d` cycles. -/
def charge (activeMisses : Nat) (d : Int) : ℚ :=
  if 0 < activeMisses then 1 / (activeMisses : ℚ) * d else d

def PCMUpdate (c : TimingCache) (cycle : Nat) : TimingCache :=
  let d := clockDiff c.lastRecordedCycle cycle
  let c' := if d < 0 then c.warn .cycleDifferenceNegative else c
  let d' := if d < 0 then negDiff d else d
  { c' with
    mshrList :=
      if 0 < d' then
        c'.mshrList.map fun e =>
          if e.valid then { e with PMC := e.PMC + charge c'.activeMisses d' } else e
      else c'.mshrList
    lastRecordedCycle := cycle }

/-- The list with the first free entry taken. -/
def addMSHR (new : MSHR) : List MSHR → Option (List MSHR)
  | [] => none
  | e :: l => if e.valid = false then some (new :: l) else (addMSHR new l).map (e :: ·)

def MSHRAdd (c : TimingCache) (lineAddr : Address) (id : Nat) : TimingCache :=
  match addMSHR ⟨lineAddr, true, id, 0, c.care.hashAddr lineAddr⟩ c.mshrList with
  | some l => { c with mshrList := l }
  | none => c.warn .outOfSpace

/-- The first valid entry of an address, and the list with it freed. -/
def removeMSHR (lineAddr : Address) : List MSHR → Option (MSHR × List MSHR)
  | [] => none
  | e :: l =>
    if e.lineAddr = lineAddr ∧ e.valid = true then some (e, ⟨2 ^ 64 - 1, false, 0, 0, 0⟩ :: l)
    else (removeMSHR lineAddr l).map fun r => (r.1, e :: r.2)

def MSHRRemove (c : TimingCache) (lineAddr : Address) : TimingCache × ℚ :=
  match removeMSHR lineAddr c.mshrList with
  | some (e, l) => ({ c with mshrList := l }, e.PMC)
  | none => (c.warn .entryNotRemoved, 0)

def setActive (c : TimingCache) (activeMisses : Nat) : TimingCache :=
  { c with activeMisses := activeMisses }

def hold (c : TimingCache) (ev : Nat) : TimingCache × List TimingCall :=
  ({ c with pendingQueue := c.pendingQueue ++ [ev] }, [.hold ev])

def simulateHit (c : TimingCache) (ev cycle : Nat) : Option (TimingCache × List TimingCall) :=
  if c.activeMisses < c.numMSHRs then
    (c.highPrioAccess cycle).map fun r => (r.1, [.done ev r.2])
  else some (c.hold ev)

def simulateMissStart (c : TimingCache) (mse : MissStartEvent) (cycle : Nat) :
    Option (TimingCache × List TimingCall) :=
  if c.activeMisses < c.numMSHRs then
    let c' := ((c.setActive (c.activeMisses + 1)).MSHRAdd mse.lineAddr mse.lineId).PCMUpdate cycle
    (c'.highPrioAccess cycle).map fun r => (r.1, [.done mse.ev r.2])
  else some (c.hold mse.ev)

/-- The release of the MSHR by a writeback that got the tag port. -/
def release (c : TimingCache) (ev cycle : Nat) (mse : MissStartEvent) :
    Option (TimingCache × List TimingCall) :=
  if 0 < c.activeMisses then
    let r := (c.setActive (c.activeMisses - 1)).MSHRRemove mse.lineAddr
    some ({ r.1.PCMUpdate cycle with pendingQueue := [] },
      [.DTRM r.2, .quantizePMC mse.lineAddr r.2 mse.lineId, .shtPMCUpdate mse.lineAddr r.2 mse.lineId]
        ++ c.pendingQueue.map (.requeue · (nextCycle cycle)) ++ [.done ev cycle])
  else none

/-- A writeback whose access to the tag array was answered with `lookupCycle`. -/
def writeback (c : TimingCache) (lookupCycle ev cycle : Nat) (mse : MissStartEvent) :
    Option (TimingCache × List TimingCall) :=
  if lookupCycle ≠ 0 then c.release ev cycle mse
  else some (c, [.requeue ev (nextCycle cycle)])

/-- `mse` is the start of the miss; the writeback is made with the same line address. -/
def simulateMissWriteback (c : TimingCache) (ev cycle : Nat) (mse : MissStartEvent) :
    Option (TimingCache × List TimingCall) :=
  let r := c.tryLowPrioAccess cycle
  r.1.writeback r.2 ev cycle mse

end TimingCache

end ZSim
