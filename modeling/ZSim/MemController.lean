import ZSim.AddressMap
import ZSim.MemScheduler

/-! The memory controller in the weave phase: accesses go to the channels at once, or wait in
the schedulers for a tick. Cycles are 64-bit words and delays 32-bit words, which wrap. A
failed assert is `none`; statistics and the address trace are left out. -/

namespace ZSim

/-- The entries of the configuration. A frequency of 0 stops the constructor. -/
structure MemControllerParam where
  mem : MemParam
  addr : AddrParam
  controllerLatency : Nat
  schedulerQueueCount : Nat
  sysFreqKHz : Nat
  memFreqKHz : Nat
  controllerLatency_lt : controllerLatency < 2 ^ 32
  sysFreq_pos : 0 < sysFreqKHz
  memFreq_pos : 0 < memFreqKHz

namespace MemControllerParam

variable (p : MemControllerParam)

def sysToMemCycle (sysCycle : Nat) : Nat := sysCycle * p.memFreqKHz % 2 ^ 64 / p.sysFreqKHz

def memToSysCycle (memCycle : Nat) : Nat := memCycle * p.sysFreqKHz % 2 ^ 64 / p.memFreqKHz

def memMinLatency (type : MemAccessType) : Nat :=
  p.memToSysCycle (p.mem.getDataLatency type) % 2 ^ 32

/-- With a scheduler the least latency is the one of a queue hit. -/
def minLatency (type : MemAccessType) : Nat :=
  let latency := if p.schedulerQueueCount = 0 then p.mem.getDataLatency type else 1
  (p.memToSysCycle latency + p.controllerLatency) % 2 ^ 32

def preDelay (type : MemAccessType) : Nat := p.minLatency type / 2

def postDelay (type : MemAccessType) : Nat := p.minLatency type - p.preDelay type

end MemControllerParam

/-- The difference of two 64-bit words. -/
def sub64 (a b : Nat) : Nat := (a + (2 ^ 64 - b)) % 2 ^ 64

structure MemController where
  chnls : Nat → MemChannel
  sches : Nat → MemScheduler

/-- An event that is done, with the argument of its `done`. -/
structure DoneEvent where
  ev : MemAccessEvent
  doneCycle : Nat

namespace MemController

variable (p : MemControllerParam) (c : MemController)

def init : MemController where
  chnls _ := MemChannel.init
  sches _ := MemScheduler.init p.schedulerQueueCount

def setChannel (i : Nat) (chnl : MemChannel) : MemController :=
  { c with chnls := Function.update c.chnls i chnl }

def setScheduler (i : Nat) (sch : MemScheduler) : MemController :=
  { c with sches := Function.update c.sches i sch }

/-- The controller after the access, and its latency in system cycles. -/
def latencySimulate (lineAddr sysCycle : Nat) (type : MemAccessType) :
    Option (MemController × Nat) := do
  let channel ← p.addr.returnChannel lineAddr
  let loc ← p.addr.addressMap channel lineAddr
  let (chnl, issue) ← (c.chnls channel).latencySimulate p.mem
    ⟨loc.row, loc.rank, loc.bank, type, p.sysToMemCycle sysCycle⟩
  let sysLatency := p.memToSysCycle issue.latency
  guard (p.memMinLatency type ≤ sysLatency)
  some (c.setChannel channel chnl, sysLatency)

/-- `enqueue` at a weave cycle, and the event if it is done. -/
def enqueue (ev : MemAccessEvent) (cycle : Nat) : Option (MemController × Option DoneEvent) :=
  if p.schedulerQueueCount = 0 then do
    let startCycle := (sub64 cycle (p.preDelay ev.type) + p.controllerLatency) % 2 ^ 64
    let (c, latency) ← c.latencySimulate p ev.addr startCycle ev.type
    let doneCycle :=
      (sub64 ((cycle + latency) % 2 ^ 64) (p.minLatency ev.type) + p.controllerLatency) % 2 ^ 64
    some (c, some ⟨ev, doneCycle⟩)
  else do
    let channel ← p.addr.returnChannel ev.addr
    let (sch, bRet) := (c.sches channel).checkSetEvent ev
    let c := c.setScheduler channel sch
    let doneCycle := (sub64 cycle (p.minLatency ev.type) + p.controllerLatency) % 2 ^ 64
    match ev.type with
    | .READ => some (c, if bRet then some ⟨ev, doneCycle⟩ else none)
    | .WRITE => some (c, some ⟨ev, doneCycle⟩)

/-- What channel `i` says of an address in its queues. -/
def isRowBufferHit (i addr : Nat) : Bool :=
  match p.addr.addressMap i addr with
  | some loc => ((c.chnls i).ranks loc.rank).isRowBufferHit loc.row loc.bank
  | none => false

/-- One turn of the loop of `TickScheduler`. -/
def tickChannel (i sysCycle : Nat) : Option (MemController × Option DoneEvent) :=
  let (sch, issue) := (c.sches i).getEvent (c.isRowBufferHit p i)
  let c := c.setScheduler i sch
  match issue with
  | none => some (c, none)
  | some (.write addr) => (c.latencySimulate p addr sysCycle .WRITE).map fun (c, _) => (c, none)
  | some (.read ev) => (c.latencySimulate p ev.addr sysCycle .READ).map fun (c, latency) =>
      (c, some ⟨ev, (sub64 sysCycle (p.minLatency .READ) + latency) % 2 ^ 64⟩)

/-- The channels from `i` on, `n` of them. -/
def tickFrom (sysCycle : Nat) : Nat → Nat → MemController → Option (MemController × List DoneEvent)
  | 0, _, c => some (c, [])
  | n + 1, i, c => do
    let (c, d) ← c.tickChannel p i sysCycle
    let (c, ds) ← tickFrom sysCycle n (i + 1) c
    some (c, d.toList ++ ds)

def tick (sysCycle : Nat) : Option (MemController × List DoneEvent) :=
  if p.schedulerQueueCount = 0 then some (c, [])
  else c.tickFrom p sysCycle p.addr.channelCount.toNat 0

end MemController

/-- The cycle at which `TimingEvent::done` wakes the children. -/
def MemControllerParam.wakeCycle (p : MemControllerParam) (d : DoneEvent) : Nat :=
  (d.doneCycle + p.postDelay d.ev.type) % 2 ^ 64

end ZSim
