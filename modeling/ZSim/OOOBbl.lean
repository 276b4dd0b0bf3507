import ZSim.OOOWindow

/-! The out-of-order core: the simulation of the uops of a basic block and of the fetch of the
next one. What the core asks of its caches and of its branch predictor comes in with the call:
a response is a latency after its request. The recorder and the counters are left out. -/

namespace ZSim.OOO

inductive UopType
  | UOP_GENERAL | UOP_LOAD | UOP_STORE | UOP_STORE_ADDR | UOP_FENCE
  deriving DecidableEq

structure DynUop where
  rs0 : Nat
  rs1 : Nat
  rd0 : Nat
  rd1 : Nat
  lat : Nat
  decCycle : Nat
  type : UopType
  portMask : BitVec 8
  extraSlots : Nat

/-- A decoded block, whose uops leave the decoders in order. -/
structure DynBbl where
  uop : List DynUop
  decoded : uop.Pairwise fun u v => u.decCycle ≤ v.decCycle

structure BblInfo where
  bytes : Nat
  oooBbl : DynBbl

structure FwdEntry where
  addr : Nat
  storeCycle : Nat

def ISSUES_PER_CYCLE : Nat := 4

def RF_READS_PER_CYCLE : Nat := 3

def FETCH_STAGE : Nat := 1

def DECODE_STAGE : Nat := 4

def ISSUE_STAGE : Nat := 7

def DISPATCH_STAGE : Nat := 13

def L1D_LAT : Nat := 4

def FWD_ENTRIES : Nat := 32

def WSZ : Nat := 36

/-- The address `-1`, of a load or store whose predicate is false. -/
def noAddr : Nat := 2 ^ 64 - 1

def fwdIdx (addr : Nat) : Nat := (addr >>> 2) % FWD_ENTRIES

structure OOOCore where
  curCycle : Nat
  regScoreboard : Nat → Nat
  prevBbl : Option BblInfo
  loadAddrs : Nat → Nat
  storeAddrs : Nat → Nat
  loads : Nat
  stores : Nat
  lastStoreCommitCycle : Nat
  lastStoreAddrCommitCycle : Nat
  loadQueue : ReorderBuffer
  storeQueue : ReorderBuffer
  curCycleRFReads : Nat
  curCycleIssuedUops : Nat
  insWindow : WindowStructure 1024
  rob : ReorderBuffer
  branchPc : Nat
  decodeCycle : Nat
  uopQueue : CycleQueue
  fwdArray : Nat → FwdEntry

structure UopTiming where
  uop : DynUop
  addr : Option Nat
  decodeCycle : Nat
  issueCycle : Nat
  dispatchCycle : Nat
  commitCycle : Nat

/-- What the caches and the branch predictor answer during a call of `bbl`: the latency of the
access of each uop and of each fetch, and whether a branch was predicted. -/
structure BblResponses where
  data : Nat → Nat
  fetch : Nat → Nat
  predicted : Bool

/-- The core and the local variables of `bbl`. -/
structure BblState where
  core : OOOCore
  loadIdx : Nat
  storeIdx : Nat
  prevDecCycle : Nat
  lastCommitCycle : Nat

theorem window_pos : 0 < 1024 := by decide

namespace OOOCore

def init : OOOCore where
  curCycle := 0
  regScoreboard := fun _ => 0
  prevBbl := none
  loadAddrs := fun _ => 0
  storeAddrs := fun _ => 0
  loads := 0
  stores := 0
  lastStoreCommitCycle := 0
  lastStoreAddrCommitCycle := 0
  loadQueue := .init
  storeQueue := .init
  curCycleRFReads := 0
  curCycleIssuedUops := 0
  insWindow := .init window_pos
  rob := .init
  branchPc := 0
  decodeCycle := DECODE_STAGE
  uopQueue := .init
  fwdArray := fun _ => ⟨noAddr, 0⟩

variable (c : OOOCore)

def load (addr : Nat) : OOOCore :=
  { c with loadAddrs := Function.update c.loadAddrs c.loads addr, loads := c.loads + 1 }

def store (addr : Nat) : OOOCore :=
  { c with storeAddrs := Function.update c.storeAddrs c.stores addr, stores := c.stores + 1 }

def predFalseLoad : OOOCore := c.load noAddr

def predFalseStore : OOOCore := c.store noAddr

def branch (pc : Nat) : OOOCore := { c with branchPc := pc }

def advancePos (cycles : Nat) : Option OOOCore :=
  match WindowStructure.advanceBy cycles c.insWindow c.curCycle with
  | some (w, curCycle) => some { c with insWindow := w, curCycle := curCycle }
  | none => none

def stallDecode : Option OOOCore :=
  if c.curCycle < c.decodeCycle then
    advancePos { c with curCycleIssuedUops := 0, curCycleRFReads := 0 }
      ((c.decodeCycle - c.curCycle) % 2 ^ 32)
  else some c

def decodeUop (decDiff : Nat) : Option OOOCore := do
  let c ← stallDecode
    { c with decodeCycle := max (c.decodeCycle + decDiff) c.uopQueue.minAllocCycle }
  some { c with uopQueue := c.uopQueue.markLeave 28 c.curCycle }

def stallIssue : Option OOOCore :=
  if ISSUES_PER_CYCLE ≤ c.curCycleIssuedUops then
    advancePos { c with curCycleIssuedUops := 0, curCycleRFReads := 0 } 1
  else some c

def issueUop : Option OOOCore := do
  let c ← c.stallIssue
  some { c with curCycleIssuedUops := c.curCycleIssuedUops + 1 }

/-- The register file with the dependences on the invalid register killed. -/
def killInvalid : OOOCore :=
  { c with regScoreboard := Function.update c.regScoreboard 0 c.curCycle }

/-- How many sources of the uop go through the register file. -/
def rfReads (uop : DynUop) : Nat :=
  (if c.regScoreboard uop.rs0 < c.curCycle then 1 else 0) +
    if c.regScoreboard uop.rs1 < c.curCycle then 1 else 0

def stallReads (reads : Nat) : Option OOOCore :=
  if RF_READS_PER_CYCLE < reads then
    advancePos { c with curCycleRFReads := reads - RF_READS_PER_CYCLE, curCycleIssuedUops := 0 } 1
  else some { c with curCycleRFReads := reads }

/-- The stalls on register reads, and the cycle at which the sources are ready. -/
def readRegs (uop : DynUop) : Option (OOOCore × Nat) := do
  let c := c.killInvalid
  let cOps := max (c.regScoreboard uop.rs0) (c.regScoreboard uop.rs1)
  let c ← c.stallReads (c.curCycleRFReads + c.rfReads uop)
  some (c, cOps)

/-- The dispatch cycle that a uop asks of the window. -/
def dispatchRequest (cOps : Nat) : Nat :=
  max cOps (max c.rob.minAllocCycle c.curCycle + (DISPATCH_STAGE - ISSUE_STAGE))

def dispatchUop (fuel : Nat) (uop : DynUop) (cOps : Nat) : Option (OOOCore × Nat) := do
  let (w, curCycle, dispatchCycle) ← c.insWindow.schedule WSZ fuel c.curCycle
    (c.dispatchRequest cOps) uop.portMask uop.extraSlots
  let c' := { c with insWindow := w, curCycle := curCycle }
  let c' := if c.curCycle < curCycle then { c' with curCycleIssuedUops := 0, curCycleRFReads := 0 }
    else c'
  some (c', dispatchCycle)

/-- The wait of a load or store for a place in its queue and for the store addresses. -/
def lsuDispatch (queue : ReorderBuffer) (dispatchCycle : Nat) : Nat :=
  max (c.lastStoreAddrCommitCycle + 1) (max queue.minAllocCycle dispatchCycle)

/-- A load, with the latency of its response. -/
def loadUop (addr dispatchCycle latency : Nat) : OOOCore × Nat × Nat :=
  let dispatchCycle := c.lsuDispatch c.loadQueue dispatchCycle
  let reqSatisfiedCycle :=
    if addr ≠ noAddr then dispatchCycle + latency + L1D_LAT else dispatchCycle
  let fwd := c.fwdArray (fwdIdx addr)
  let reqSatisfiedCycle :=
    if fwd.addr = addr then max reqSatisfiedCycle fwd.storeCycle else reqSatisfiedCycle
  ({ c with loadQueue := c.loadQueue.markRetire 32 4 reqSatisfiedCycle }, dispatchCycle,
    reqSatisfiedCycle)

def storeUop (addr dispatchCycle latency : Nat) : OOOCore × Nat × Nat :=
  let dispatchCycle := c.lsuDispatch c.storeQueue dispatchCycle
  let reqSatisfiedCycle := dispatchCycle + latency + L1D_LAT
  ({ c with
    fwdArray := Function.update c.fwdArray (fwdIdx addr) ⟨addr, reqSatisfiedCycle⟩
    lastStoreCommitCycle := max c.lastStoreCommitCycle reqSatisfiedCycle
    storeQueue := c.storeQueue.markRetire 32 4 reqSatisfiedCycle }, dispatchCycle,
    reqSatisfiedCycle)

def retireUop (uop : DynUop) (commitCycle : Nat) : OOOCore :=
  { c with
    rob := c.rob.markRetire 128 4 commitCycle
    regScoreboard :=
      Function.update (Function.update c.regScoreboard uop.rd0 commitCycle) uop.rd1 commitCycle }

end OOOCore

namespace BblState

variable (s : BblState)

/-- The LSU simulation: the state, the dispatch and commit cycles and the address. -/
def executeUop (uop : DynUop) (dispatchCycle latency : Nat) :
    BblState × Nat × Nat × Option Nat :=
  let c := s.core
  let commitCycle := dispatchCycle + uop.lat
  match uop.type with
  | .UOP_GENERAL => (s, dispatchCycle, commitCycle, none)
  | .UOP_LOAD =>
    let addr := c.loadAddrs s.loadIdx
    let (c, dispatchCycle, commitCycle) := c.loadUop addr dispatchCycle latency
    ({ s with core := c, loadIdx := s.loadIdx + 1 }, dispatchCycle, commitCycle, some addr)
  | .UOP_STORE =>
    let addr := c.storeAddrs s.storeIdx
    let (c, dispatchCycle, commitCycle) := c.storeUop addr dispatchCycle latency
    ({ s with core := c, storeIdx := s.storeIdx + 1 }, dispatchCycle, commitCycle, some addr)
  | .UOP_STORE_ADDR =>
    ({ s with core := { c with
        lastStoreAddrCommitCycle := max c.lastStoreAddrCommitCycle commitCycle } },
      dispatchCycle, commitCycle, none)
  | .UOP_FENCE =>
    ({ s with core := { c with
        lastStoreAddrCommitCycle := max commitCycle
          (max c.lastStoreAddrCommitCycle (c.lastStoreCommitCycle + uop.lat)) } },
      dispatchCycle, commitCycle, none)

/-- The stages of a uop up to the read of its sources. -/
def frontEnd (uop : DynUop) : Option (OOOCore × Nat) := do
  let c ← s.core.decodeUop (uop.decCycle - s.prevDecCycle)
  let c ← c.issueUop
  c.readRegs uop

def simulateUop (fuel latency : Nat) (uop : DynUop) : Option (BblState × UopTiming) := do
  let (c, cOps) ← s.frontEnd uop
  let (c, dispatchCycle) ← c.dispatchUop fuel uop cOps
  let (s, dispatchCycle, commitCycle, addr) :=
    { s with core := c, prevDecCycle := uop.decCycle }.executeUop uop dispatchCycle latency
  some ({ s with core := s.core.retireUop uop commitCycle, lastCommitCycle := commitCycle },
    ⟨uop, addr, c.decodeCycle, c.curCycle, dispatchCycle, commitCycle⟩)

/-- The loop over the uops, from the one with index `i` on, with the timings newest first. -/
def simulateUops (fuel : Nat) (data : Nat → Nat) :
    Nat → List DynUop → BblState → List UopTiming → Option (BblState × List UopTiming)
  | _, [], s, tr => some (s, tr)
  | i, uop :: uops, s, tr =>
    match s.simulateUop fuel (data i) uop with
    | some (s, t) => simulateUops fuel data (i + 1) uops s (t :: tr)
    | none => none

/-- The asserts after the loop, and the frontend for the next block. -/
def finishBbl (resp : BblResponses) (lineSize : Nat) (bblInfo : BblInfo) : Option OOOCore := do
  guard (s.loadIdx = s.core.loads ∧ s.storeIdx = s.core.stores)
  let c := { s.core with loads := 0, stores := 0 }
  let fetchCycle := c.decodeCycle - (DECODE_STAGE - FETCH_STAGE)
  let fetchCycle :=
    if c.branchPc ≠ 0 ∧ resp.predicted = false then s.lastCommitCycle else fetchCycle
  let lines := (bblInfo.bytes + lineSize - 1) / lineSize
  let fetchCycle := (List.range lines).foldl (fun cycle i => cycle + resp.fetch i) fetchCycle
  some { c with
    branchPc := 0
    decodeCycle := max (c.decodeCycle + 1) (fetchCycle + (DECODE_STAGE - FETCH_STAGE)) }

end BblState

/-- `bbl`, which simulates the previous block, with the timings newest first. -/
def OOOCore.bbl (c : OOOCore) (fuel : Nat) (resp : BblResponses) (lineSize : Nat)
    (bblInfo : BblInfo) (tr : List UopTiming) : Option (OOOCore × List UopTiming) :=
  match c.prevBbl with
  | none => some ({ c with prevBbl := some bblInfo, loads := 0, stores := 0 }, tr)
  | some prev => do
    let (s, tr) ← BblState.simulateUops fuel resp.data 0 prev.oooBbl.uop
      ⟨{ c with prevBbl := some bblInfo }, 0, 0, 0, 0⟩ tr
    let c ← s.finishBbl resp lineSize bblInfo
    some (c, tr)

inductive CoreCall
  | load (addr : Nat)
  | store (addr : Nat)
  | predFalseLoad
  | predFalseStore
  | branch (pc : Nat)
  | bbl (fuel : Nat) (resp : BblResponses) (lineSize : Nat) (bblInfo : BblInfo)

def OOOCore.call (c : OOOCore) (tr : List UopTiming) :
    CoreCall → Option (OOOCore × List UopTiming)
  | .load addr => some (c.load addr, tr)
  | .store addr => some (c.store addr, tr)
  | .predFalseLoad => some (c.predFalseLoad, tr)
  | .predFalseStore => some (c.predFalseStore, tr)
  | .branch pc => some (c.branch pc, tr)
  | .bbl fuel resp lineSize bblInfo => c.bbl fuel resp lineSize bblInfo tr

end ZSim.OOO
