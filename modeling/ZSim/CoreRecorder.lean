import Mathlib.Tactic

/-! The recorders of cores that simulate contention, their unhalted cycles, and the cycles and
instructions of processes. -/

namespace ZSim

inductive RecorderState where
  | halted
  | running
  | draining
  deriving DecidableEq

/-- The last event produced: none, the last one of `pending`, or the response to an access. -/
inductive LastProduced where
  | none
  | own
  | response
  deriving DecidableEq

/-- What both recorders keep. Cycles are far from 2^64. `pending` has the recorder's own events
that are still to be simulated, by their start cycles in the clock without gaps. -/
structure CycleAccount where
  state : RecorderState
  gapCycles : Nat
  totalGapCycles : Nat
  totalHaltedCycles : Nat
  lastUnhaltedCycle : Nat
  lastStartCycle : Nat
  lastOrigStartCycle : Int
  pending : List Int
  lastProduced : LastProduced

namespace CycleAccount

def init : CycleAccount := ⟨.halted, 0, 0, 0, 0, 0, 0, [], .none⟩

def getUnhaltedCycles (r : CycleAccount) (globPhaseCycles curCycle : Nat) : Int :=
  let cycle : Int := (max curCycle globPhaseCycles : Nat)
  let haltedCycles : Int :=
    r.totalHaltedCycles + if r.state = .halted then cycle - r.lastUnhaltedCycle else 0
  cycle - haltedCycles

/-- `origStartCycle` is the phase 1 clock without the gaps. -/
def addEvent (r : CycleAccount) (cycle : Nat) : CycleAccount :=
  { r with pending := r.pending ++ [(cycle : Int) - r.gapCycles], lastProduced := .own }

/-- A halted core joins at the beginning of the phase. -/
def joinHalted (r : CycleAccount) (globPhaseCycles : Nat) : Option CycleAccount :=
  if r.lastProduced = .none ∧ r.lastUnhaltedCycle ≤ globPhaseCycles then
    let r := { r with
      totalGapCycles := r.totalGapCycles + r.gapCycles
      gapCycles := 0
      totalHaltedCycles := r.totalHaltedCycles + (globPhaseCycles - r.lastUnhaltedCycle)
      state := .running }
    some (r.addEvent globPhaseCycles)
  else none

def reportSimulated (r : CycleAccount) (startCycle : Nat) : Option CycleAccount :=
  match r.pending with
  | [] => none
  | origStartCycle :: pending => some { r with
      lastStartCycle := startCycle
      lastOrigStartCycle := origStartCycle
      pending := pending
      lastProduced := if pending = [] ∧ r.lastProduced = .own then .none else r.lastProduced }

/-- The weave phase: the start cycles of the events it simulates. -/
def simulate : List Nat → CycleAccount → Option CycleAccount
  | [], r => some r
  | startCycle :: starts, r => (r.reportSimulated startCycle).bind (simulate starts)

/-- Contention may only add to the cycles of the last event. -/
def skew (r : CycleAccount) (curCycle : Nat) : Option Nat :=
  let lastEvCycle1 : Int := r.lastOrigStartCycle + r.gapCycles
  let lastEvCycle2 : Int := r.lastStartCycle
  if lastEvCycle1 ≤ curCycle ∧ lastEvCycle2 ≤ curCycle ∧ lastEvCycle1 ≤ lastEvCycle2 then
    some (lastEvCycle2 - lastEvCycle1).toNat
  else none

def addGap (r : CycleAccount) (skew : Nat) : CycleAccount :=
  { r with gapCycles := r.gapCycles + skew }

/-- A core without events is done draining. -/
def taper (r : CycleAccount) : Option CycleAccount :=
  if r.lastProduced = .none then
    if r.state = .draining then
      some { r with lastUnhaltedCycle := r.lastStartCycle, state := .halted }
    else none
  else some r

end CycleAccount

structure TimingRecord where
  isGet : Bool
  reqCycle : Nat
  respCycle : Nat

structure CoreRecorder where
  account : CycleAccount
  prevRespCycle : Nat

namespace CoreRecorder

def notifyJoin (r : CoreRecorder) (globPhaseCycles curCycle : Nat) :
    Option (CoreRecorder × Nat) :=
  match r.account.state with
  | .halted =>
    (r.account.joinHalted globPhaseCycles).map fun a => (⟨a, globPhaseCycles⟩, globPhaseCycles)
  | .draining =>
    if globPhaseCycles ≤ curCycle then
      some ({ r with account := { r.account with state := .running } }, curCycle)
    else none
  | .running => none

def notifyLeave (r : CoreRecorder) (curCycle : Nat) : Option CoreRecorder :=
  if r.account.state = .running ∧ r.account.lastProduced ≠ .none then
    let a := (r.account.addEvent r.prevRespCycle).addEvent curCycle
    some ⟨{ a with state := .draining }, curCycle⟩
  else none

def recordAccess (r : CoreRecorder) (tr : TimingRecord) (startCycle : Nat) :
    Option CoreRecorder :=
  if r.prevRespCycle ≤ startCycle ∧ startCycle ≤ tr.reqCycle ∧
      r.account.lastProduced ≠ .none then
    if tr.isGet then
      some ⟨{ r.account.addEvent r.prevRespCycle with lastProduced := .response }, tr.respCycle⟩
    else some r
  else none

def cSimStart (r : CoreRecorder) (nextPhaseCycle curCycle : Nat) :
    Option (CoreRecorder × Nat) :=
  match r.account.state with
  | .halted => some (r, curCycle)
  | .running =>
    if nextPhaseCycle ≤ curCycle ∧ r.account.lastProduced ≠ .none then
      if r.prevRespCycle < curCycle then
        some (⟨(r.account.addEvent r.prevRespCycle).addEvent curCycle, curCycle⟩, curCycle)
      else some (⟨r.account.addEvent r.prevRespCycle, r.prevRespCycle⟩, curCycle)
    else none
  | .draining => some (r, max curCycle nextPhaseCycle)

/-- Only a core that is draining has its last event simulated. -/
def simulate (r : CoreRecorder) (starts : List Nat) : Option CoreRecorder :=
  (r.account.simulate starts).bind fun a =>
    if r.account.lastProduced ≠ .none ∧ a.lastProduced = .none ∧ a.state ≠ .draining then none
    else some { r with account := a }

def cSimEnd (r : CoreRecorder) (curCycle : Nat) : Option (CoreRecorder × Nat) :=
  if r.account.state = .halted then some (r, curCycle)
  else
    (r.account.skew curCycle).bind fun skew =>
      (r.account.addGap skew).taper.map fun a =>
        (⟨a, r.prevRespCycle + skew⟩, curCycle + skew)

end CoreRecorder

structure OOOCoreRecorder where
  account : CycleAccount

namespace OOOCoreRecorder

/-- Issue events do not go back in the clock without gaps. -/
def addIssueEvent (r : OOOCoreRecorder) (evCycle : Nat) : Option OOOCoreRecorder :=
  if r.account.lastProduced ≠ .none ∧
      ∀ z ∈ r.account.pending.getLast?, z ≤ (evCycle : Int) - r.account.gapCycles then
    some ⟨r.account.addEvent evCycle⟩
  else none

def notifyJoin (r : OOOCoreRecorder) (globPhaseCycles curCycle : Nat) :
    Option (OOOCoreRecorder × Nat) :=
  match r.account.state with
  | .halted => (r.account.joinHalted globPhaseCycles).map fun a => (⟨a⟩, globPhaseCycles)
  | .draining =>
    if globPhaseCycles ≤ curCycle then
      (r.addIssueEvent curCycle).map fun r =>
        (⟨{ r.account with state := .running }⟩, curCycle)
    else none
  | .running => none

def notifyLeave (r : OOOCoreRecorder) (curCycle : Nat) : Option OOOCoreRecorder :=
  if r.account.state = .running then
    (OOOCoreRecorder.addIssueEvent ⟨{ r.account with state := .draining }⟩ curCycle)
  else none

def recordAccess (r : OOOCoreRecorder) (tr : TimingRecord) (curCycle : Nat) :
    Option OOOCoreRecorder :=
  if tr.isGet then r.addIssueEvent curCycle else some r

def cSimStart (r : OOOCoreRecorder) (nextPhaseCycle curCycle : Nat) :
    Option (OOOCoreRecorder × Nat) :=
  match r.account.state with
  | .halted => some (r, curCycle)
  | .running =>
    match r.account.pending.getLast? with
    | none => none
    | some zllStartCycle =>
      if nextPhaseCycle < curCycle ∧ zllStartCycle ≤ (curCycle : Int) - r.account.gapCycles then
        if zllStartCycle < (nextPhaseCycle : Int) - r.account.gapCycles then
          (r.addIssueEvent nextPhaseCycle).map fun r => (r, curCycle)
        else some (r, curCycle)
      else none
  | .draining => some (r, max curCycle nextPhaseCycle)

def simulate (r : OOOCoreRecorder) (starts : List Nat) : Option OOOCoreRecorder :=
  (r.account.simulate starts).map fun a => ⟨a⟩

def cSimEnd (r : OOOCoreRecorder) (curCycle : Nat) : Option (OOOCoreRecorder × Nat) :=
  if r.account.state = .halted then some (r, curCycle)
  else
    (r.account.skew curCycle).bind fun skew =>
      (r.account.addGap skew).taper.map fun a => (⟨a⟩, curCycle + skew)

end OOOCoreRecorder

/-- What a thread does on its core. The hierarchy takes `cycles` for an access, and `tr` is its
record if it has one. -/
inductive CoreOp where
  | join
  | leave
  | access (tr : Option TimingRecord) (cycles : Nat)
  | bbl (instrs cycles : Nat)

structure TimingCore where
  instrs : Nat
  curCycle : Nat
  cRec : CoreRecorder

namespace TimingCore

def init : TimingCore := ⟨0, 0, ⟨.init, 0⟩⟩

def step (c : TimingCore) (globPhaseCycles : Nat) : CoreOp → Option TimingCore
  | .join => (c.cRec.notifyJoin globPhaseCycles c.curCycle).map fun r =>
      { c with cRec := r.1, curCycle := r.2 }
  | .leave => (c.cRec.notifyLeave c.curCycle).map fun r => { c with cRec := r }
  | .access tr cycles =>
    let cRec := match tr with
      | none => some c.cRec
      | some tr => c.cRec.recordAccess tr c.curCycle
    if c.cRec.account.state = .running then
      cRec.map fun r => { c with cRec := r, curCycle := c.curCycle + cycles }
    else none
  | .bbl instrs _ =>
    if c.cRec.account.state = .running then
      some { c with instrs := c.instrs + instrs, curCycle := c.curCycle + instrs }
    else none

/-- `cSimStart`, the weave phase and `cSimEnd`. -/
def simulatePhase (c : TimingCore) (nextPhaseCycle : Nat) (starts : List Nat) :
    Option TimingCore :=
  (c.cRec.cSimStart nextPhaseCycle c.curCycle).bind fun r =>
    (r.1.simulate starts).bind fun cRec =>
      (cRec.cSimEnd r.2).map fun r => { c with cRec := r.1, curCycle := r.2 }

end TimingCore

structure OOOCore where
  instrs : Nat
  curCycle : Nat
  cRec : OOOCoreRecorder

namespace OOOCore

def init : OOOCore := ⟨0, 0, ⟨.init⟩⟩

/-- `advance` is only called for a later cycle. -/
def step (c : OOOCore) (globPhaseCycles : Nat) : CoreOp → Option OOOCore
  | .join => (c.cRec.notifyJoin globPhaseCycles c.curCycle).map fun r =>
      { c with cRec := r.1, curCycle := max c.curCycle r.2 }
  | .leave => (c.cRec.notifyLeave c.curCycle).map fun r => { c with cRec := r }
  | .access tr cycles =>
    let cRec := match tr with
      | none => some c.cRec
      | some tr => c.cRec.recordAccess tr c.curCycle
    if c.cRec.account.state = .running then
      cRec.map fun r => { c with cRec := r, curCycle := c.curCycle + cycles }
    else none
  | .bbl instrs cycles =>
    if c.cRec.account.state = .running then
      some { c with instrs := c.instrs + instrs, curCycle := c.curCycle + cycles }
    else none

def simulatePhase (c : OOOCore) (nextPhaseCycle : Nat) (starts : List Nat) : Option OOOCore :=
  (c.cRec.cSimStart nextPhaseCycle c.curCycle).bind fun r =>
    (r.1.simulate starts).bind fun cRec =>
      (cRec.cSimEnd r.2).map fun r => { c with cRec := r.1, curCycle := r.2 }

end OOOCore

inductive Core where
  | timing (c : TimingCore)
  | ooo (c : OOOCore)

namespace Core

def init (ooo : Bool) : Core := if ooo then .ooo .init else .timing .init

def account : Core → CycleAccount
  | .timing c => c.cRec.account
  | .ooo c => c.cRec.account

def curCycle : Core → Nat
  | .timing c => c.curCycle
  | .ooo c => c.curCycle

def getInstrs : Core → Nat
  | .timing c => c.instrs
  | .ooo c => c.instrs

def getCycles (c : Core) (globPhaseCycles : Nat) : Int :=
  c.account.getUnhaltedCycles globPhaseCycles c.curCycle

def step (c : Core) (globPhaseCycles : Nat) (op : CoreOp) : Option Core :=
  match c with
  | .timing c => (c.step globPhaseCycles op).map .timing
  | .ooo c => (c.step globPhaseCycles op).map .ooo

def simulatePhase (c : Core) (nextPhaseCycle : Nat) (starts : List Nat) : Option Core :=
  match c with
  | .timing c => (c.simulatePhase nextPhaseCycle starts).map .timing
  | .ooo c => (c.simulatePhase nextPhaseCycle starts).map .ooo

end Core

/-- Groups of processes are processes too. -/
structure GlobSimConfig where
  numCores : Nat
  phaseLength : Nat
  maxProcs : Nat
  groupIdx : Nat → Nat
  groupIdx_lt : ∀ p < maxProcs, groupIdx p < maxProcs

structure ProcessStats where
  processCycles : Nat → Int
  processInstrs : Nat → Nat
  lastCoreCycles : Nat → Int
  lastCoreInstrs : Nat → Nat
  lastUpdatePhase : Nat

/-- The simulator, as far as it matters for the counts. `scheduledPid` is the process on a core. -/
structure GlobSimInfo where
  cores : Nat → Core
  globPhaseCycles : Nat
  numPhases : Nat
  scheduledPid : Nat → Option Nat
  stats : ProcessStats

namespace GlobSimInfo

variable (G : GlobSimConfig)

def getCycles (s : GlobSimInfo) (cid : Nat) : Int := (s.cores cid).getCycles s.globPhaseCycles

def updateCore (s : GlobSimInfo) (cid p : Nat) : Option GlobSimInfo :=
  let p := G.groupIdx p
  let cCycles := s.getCycles cid
  let cInstrs := (s.cores cid).getInstrs
  if s.stats.lastCoreCycles cid ≤ cCycles ∧ s.stats.lastCoreInstrs cid ≤ cInstrs then
    some { s with stats := { s.stats with
      processCycles := Function.update s.stats.processCycles p
        (s.stats.processCycles p + (cCycles - s.stats.lastCoreCycles cid))
      processInstrs := Function.update s.stats.processInstrs p
        (s.stats.processInstrs p + (cInstrs - s.stats.lastCoreInstrs cid))
      lastCoreCycles := Function.update s.stats.lastCoreCycles cid cCycles
      lastCoreInstrs := Function.update s.stats.lastCoreInstrs cid cInstrs } }
  else none

def updateCores : List Nat → GlobSimInfo → Option GlobSimInfo
  | [], s => some s
  | cid :: cids, s =>
    match s.scheduledPid cid with
    | none => updateCores cids s
    | some p => (s.updateCore G cid p).bind (updateCores cids)

def update (s : GlobSimInfo) : Option GlobSimInfo :=
  if s.stats.lastUpdatePhase < s.numPhases then
    (updateCores G (List.range G.numCores) s).map fun s =>
      { s with stats := { s.stats with lastUpdatePhase := s.numPhases } }
  else none

/-- The update that `getProcessCycles` and `getProcessInstrs` begin with. -/
def getProcess (s : GlobSimInfo) : Option GlobSimInfo :=
  if s.stats.lastUpdatePhase ≠ s.numPhases then s.update G else some s

def simulateCores (weave : Nat → List Nat) : List Nat → GlobSimInfo → Option GlobSimInfo
  | [], s => some s
  | cid :: cids, s =>
    ((s.cores cid).simulatePhase (s.globPhaseCycles + G.phaseLength) (weave cid)).bind fun c =>
      simulateCores weave cids { s with cores := Function.update s.cores cid c }

inductive Op where
  | core (cid : Nat) (op : CoreOp)
  | simulatePhase (weave : Nat → List Nat)
  | endPhase
  | schedule (cid pid : Nat)
  | deschedule (cid : Nat)
  | getProcess

def Allowed : Op → Prop
  | .core cid _ => cid < G.numCores
  | .schedule cid pid => cid < G.numCores ∧ pid < G.maxProcs
  | .deschedule cid => cid < G.numCores
  | _ => True

def step (s : GlobSimInfo) : Op → Option GlobSimInfo
  | .core cid op => ((s.cores cid).step s.globPhaseCycles op).map fun c =>
      { s with cores := Function.update s.cores cid c }
  | .simulatePhase weave => simulateCores G weave (List.range G.numCores) s
  | .endPhase => some { s with
      numPhases := s.numPhases + 1
      globPhaseCycles := s.globPhaseCycles + G.phaseLength }
  | .schedule cid pid =>
    if s.scheduledPid cid = none then
      some { s with scheduledPid := Function.update s.scheduledPid cid (some pid) }
    else none
  | .deschedule cid =>
    (s.scheduledPid cid).bind fun pid =>
      updateCore G { s with scheduledPid := Function.update s.scheduledPid cid none } cid pid
  | .getProcess => s.getProcess G

/-- Cores of either kind, and nothing run yet. -/
def init (ooo : Nat → Bool) : GlobSimInfo :=
  ⟨fun cid => .init (ooo cid), 0, 0, fun _ => none,
    ⟨fun _ => 0, fun _ => 0, fun _ => 0, fun _ => 0, 0⟩⟩

end GlobSimInfo

end ZSim
